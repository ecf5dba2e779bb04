import Mathlib.Data.List.DropRight
import StreamedUi.Paint.Painter
import StreamedUi.Proofs.Text.Search

/-! Runs of a painter. What is painted before the end goes through the first `>` at or after the
last `</` (`closedText?_eq_some_iff`), and such texts only grow with the buffer
(`EndsAtTag.mono`), though there is none while the last `</` has no `>`. So whatever the calls,
every repaint shows more than the one before, and at the end everything that was pushed is painted
(`Showing.run_paints`). -/

namespace StreamedUi.Paint

/-! ## Texts that end with a closing tag -/

/-- The text goes through the first `>` at or after the last `</` of the buffer. -/
def EndsAtTag (buffer text : List Char) : Prop :=
  ∃ before tag after, buffer = before ++ ('<' :: '/' :: tag ++ '>' :: after) ∧
    text = before ++ ('<' :: '/' :: tag ++ ['>']) ∧ '>' ∉ tag ∧
    ¬['<', '/'] <:+: '/' :: tag ++ '>' :: after

theorem takeThrough?_tag (rest : List Char) : Text.takeThrough? '>' ('<' :: '/' :: rest) =
    (Text.takeThrough? '>' rest).map fun tag => '<' :: '/' :: tag := by
  rw [Text.takeThrough?, if_neg (by decide), Text.takeThrough?, if_neg (by decide), Option.map_map]
  rfl

theorem closedText?_eq_some_iff {buffer text : List Char} :
    closedText? buffer = some text ↔ EndsAtTag buffer text := by
  unfold closedText? EndsAtTag
  simp only [Option.bind_eq_bind, Option.bind_eq_some_iff, Prod.exists, Option.pure_def,
    Option.some.injEq, Text.splitLast?_eq_some_iff (List.cons_ne_nil '<' ['/'])]
  constructor
  · intro h
    obtain ⟨before, _, ⟨rfl, ⟨rest, rfl⟩, hlast⟩, _, hthrough, rfl⟩ := h
    rw [List.cons_append, List.cons_append, takeThrough?_tag, Option.map_eq_some_iff] at hthrough
    obtain ⟨_, hthrough, rfl⟩ := hthrough
    obtain ⟨tag, after, rfl, rfl, htag⟩ := Text.takeThrough?_eq_some_iff.1 hthrough
    exact ⟨before, tag, after, rfl, rfl, htag, hlast⟩
  · intro h
    obtain ⟨before, tag, after, rfl, rfl, htag, hlast⟩ := h
    refine ⟨before, _, ⟨rfl, ⟨tag ++ '>' :: after, rfl⟩, hlast⟩, _, ?_, rfl⟩
    rw [List.cons_append, List.cons_append, takeThrough?_tag,
      Text.takeThrough?_eq_some_iff.2 ⟨tag, after, rfl, rfl, htag⟩]
    rfl

namespace EndsAtTag

variable {buffer buffer' text text' : List Char}

theorem ne_nil (h : EndsAtTag buffer text) : text ≠ [] := by
  obtain ⟨before, tag, after, -, rfl, -⟩ := h
  simp

theorem text_le (h : EndsAtTag buffer text) : text <+: buffer := by
  obtain ⟨before, tag, after, rfl, rfl, -⟩ := h
  exact ⟨after, by simp⟩

/-- The last `</` of a longer buffer is not further left. -/
theorem before_le {before before' rest rest' : List Char}
    (hbuffer : before ++ '<' :: '/' :: rest <+: before' ++ '<' :: rest')
    (hlast : ¬['<', '/'] <:+: rest') : before <+: before' := by
  have hbefore := (List.prefix_append before ('<' :: '/' :: rest)).trans hbuffer
  rcases List.prefix_or_prefix_of_prefix hbefore (List.prefix_append before' ('<' :: rest')) with
    h | ⟨between, rfl⟩
  · exact h
  cases between with
  | nil => simp
  | cons c between =>
    rw [List.append_assoc, List.prefix_append_right_inj, List.cons_append,
      List.cons_prefix_cons] at hbuffer
    refine absurd (List.IsInfix.trans ?_ hbuffer.2.isInfix) hlast
    exact ⟨between, rest, by simp⟩

theorem mono (h : EndsAtTag buffer text) (h' : EndsAtTag buffer' text')
    (hbuffer : buffer <+: buffer') : text <+: text' := by
  have htext := h.text_le.trans hbuffer
  rcases List.prefix_or_prefix_of_prefix htext h'.text_le with hle | hlt
  · exact hle
  obtain ⟨before, tag, after, rfl, rfl, htag, -⟩ := h
  obtain ⟨before', tag', after', rfl, rfl, -, hlast⟩ := h'
  obtain ⟨between, rfl⟩ := before_le hbuffer hlast
  have hsplit : before ++ ('<' :: '/' :: tag ++ ['>']) = (before ++ '<' :: '/' :: tag) ++ ['>'] :=
    (List.append_assoc ..).symm
  rw [hsplit] at hlt ⊢
  rcases List.prefix_concat_iff.1 hlt with heq | hlt
  · exact heq ▸ List.prefix_rfl
  -- A shorter text would end with a `>` that stands in the other one's tag.
  · rw [List.append_assoc, List.prefix_append_right_inj] at hlt
    have hmem : '>' ∈ '<' :: '/' :: tag := hlt.mem (by simp)
    simp [htag] at hmem

end EndsAtTag

theorem safePrefix_cases (buffer : String) :
    safePrefix buffer = "" ∨ EndsAtTag buffer.toList (safePrefix buffer).toList := by
  unfold safePrefix
  cases h : closedText? buffer.toList with
  | none => exact .inl rfl
  | some text =>
    rw [Option.getD_some, String.toList_ofList]
    exact .inr (closedText?_eq_some_iff.1 h)

namespace Painter

/-- The safe prefix is painted, unless it is empty or shows already. -/
theorem flush_eq (p : Painter) :
    (safePrefix p.buffer ≠ "" ∧ safePrefix p.buffer ≠ p.lastPainted ∧
      p.flush = ({ p with lastPainted := safePrefix p.buffer, repaintPending := false },
        some (safePrefix p.buffer))) ∨
    (safePrefix p.buffer = "" ∨ safePrefix p.buffer = p.lastPainted) ∧
      p.flush = ({ p with repaintPending := false }, none) := by
  unfold flush
  dsimp only
  split
  case isTrue h =>
    rw [Bool.or_eq_true, String.isEmpty_iff, beq_iff_eq] at h
    exact .inr ⟨h, rfl⟩
  case isFalse h =>
    rw [Bool.or_eq_true, not_or, String.isEmpty_iff, beq_iff_eq] at h
    exact .inl ⟨h.1, h.2, rfl⟩

theorem flush_cases (p : Painter) :
    p.flush = ({ p with repaintPending := false }, none) ∨
    ∃ text, EndsAtTag p.buffer.toList text.toList ∧ text ≠ p.lastPainted ∧
      p.flush = ({ p with lastPainted := text, repaintPending := false }, some text) := by
  obtain ⟨hsafe, hnew, h⟩ | ⟨-, h⟩ := p.flush_eq
  · exact .inr ⟨_, (safePrefix_cases p.buffer).resolve_left hsafe, hnew, h⟩
  · exact .inl h

theorem buffer_flush (p : Painter) : p.flush.1.buffer = p.buffer := by
  obtain ⟨-, -, h⟩ | ⟨-, h⟩ := p.flush_eq
  all_goals rw [h]

theorem repaintPending_flush (p : Painter) : p.flush.1.repaintPending = false := by
  obtain ⟨-, -, h⟩ | ⟨-, h⟩ := p.flush_eq
  all_goals rw [h]

theorem lastPainted_flush (p : Painter) :
    p.flush.1.lastPainted = p.flush.2.getD p.lastPainted := by
  obtain ⟨-, -, h⟩ | ⟨-, h⟩ := p.flush_eq
  all_goals rw [h]; rfl

theorem flush_shows {p : Painter} (hsafe : safePrefix p.buffer ≠ "") :
    p.flush.1.lastPainted = safePrefix p.buffer := by
  obtain ⟨-, -, h⟩ | ⟨hshown, h⟩ := p.flush_eq
  · rw [h]
  · rw [h]
    exact (hshown.resolve_left hsafe).symm

theorem eq_safePrefix_of_flush {p : Painter} {html : String} (hpainted : p.flush.2 = some html) :
    html = safePrefix p.buffer := by
  obtain ⟨-, -, h⟩ | ⟨-, h⟩ := p.flush_eq
  · rw [h] at hpainted
    exact (Option.some.inj hpainted).symm
  · rw [h] at hpainted
    cases hpainted

/-! ## Calls -/

/-- A call of a painter. -/
inductive Call
  | push (text : String)
  | flush
  | finish
  | cancel
  deriving DecidableEq, Repr

/-- Whether the painter starts anew. -/
def Call.resets : Call → Bool
  | .finish | .cancel => true
  | .push _ | .flush => false

/-- The text that a call adds to the buffer. -/
def Call.pushed : Call → String
  | .push text => text
  | .flush | .finish | .cancel => ""

/-- What has been pushed since the last reset. -/
def openText (calls : List Call) : String :=
  String.join ((calls.rtakeWhile (!·.resets)).map Call.pushed)

theorem openText_concat (calls : List Call) (c : Call) :
    openText (calls ++ [c]) = if c.resets then "" else openText calls ++ c.pushed := by
  unfold openText
  split
  case isTrue h =>
    rw [List.rtakeWhile_concat_neg _ _ _ (by simp [h])]
    rfl
  case isFalse h =>
    rw [List.rtakeWhile_concat_pos _ _ _ (by simp [h]), List.map_append, String.join_append]
    simp

/-! ## Runs -/

/-- A text that was painted before the end. -/
structure Repaint where
  text : String
  /-- The buffer at that time. -/
  buffer : String
  deriving DecidableEq, Repr

/-- A painter at work, and its repaints since the last reset. -/
structure Showing where
  painter : Painter := .empty
  repaints : List Repaint := []
  deriving DecidableEq, Repr

namespace Showing

/-- One call, with the repaint that it makes. -/
def call (s : Showing) : Call → Showing
  | .push text => { s with painter := (s.painter.push text).1 }
  | .flush =>
    let (painter, painted) := s.painter.flush
    ⟨painter, s.repaints ++ painted.toList.map (⟨·, s.painter.buffer⟩)⟩
  | .finish => ⟨s.painter.finish.1, []⟩
  | .cancel => ⟨s.painter.cancel, []⟩

/-- A new painter after some calls. -/
def run (calls : List Call) : Showing := calls.foldl call {}

theorem run_concat (calls : List Call) (c : Call) : run (calls ++ [c]) = (run calls).call c :=
  List.foldl_concat ..

/-- Repaints show ever more of the buffer, and the painter knows the last one. -/
structure Valid (s : Showing) : Prop where
  ends : ∀ r ∈ s.repaints, EndsAtTag r.buffer.toList r.text.toList
  buffer : ∀ r ∈ s.repaints, r.buffer.toList <+: s.painter.buffer.toList
  increasing : s.repaints.Pairwise fun r r' => r.text.toList <+: r'.text.toList ∧ r.text ≠ r'.text
  last : ∀ r ∈ s.repaints.getLast?, s.painter.lastPainted = r.text

namespace Valid

variable {s : Showing}

theorem empty : Valid {} where
  ends := nofun
  buffer := nofun
  increasing := .nil
  last := nofun

theorem push (H : s.Valid) (text : String) : (s.call (.push text)).Valid where
  ends := H.ends
  buffer r hr := by
    refine (H.buffer r hr).trans ?_
    rw [call, Painter.push, String.toList_append]
    exact List.prefix_append _ _
  increasing := H.increasing
  last := H.last

theorem le_last {earlier : List Repaint} {last : Repaint} (H : s.Valid)
    (h : s.repaints = earlier ++ [last]) {r : Repaint} (hr : r ∈ s.repaints) :
    r.text.toList <+: last.text.toList := by
  have hincreasing := H.increasing
  rw [h, List.pairwise_append] at hincreasing
  rw [h, List.mem_append, List.mem_singleton] at hr
  rcases hr with hr | rfl
  · exact (hincreasing.2.2 r hr last (List.mem_singleton_self _)).1
  · exact List.prefix_rfl

/-- A text that is not the last one painted is none of those before it either. -/
theorem increases (H : s.Valid) {text : String}
    (htext : EndsAtTag s.painter.buffer.toList text.toList) (hnew : text ≠ s.painter.lastPainted)
    {r : Repaint} (hr : r ∈ s.repaints) : r.text.toList <+: text.toList ∧ r.text ≠ text := by
  have hmono : ∀ r ∈ s.repaints, r.text.toList <+: text.toList := fun r hr =>
    (H.ends r hr).mono htext (H.buffer r hr)
  refine ⟨hmono r hr, ?_⟩
  rintro rfl
  obtain h | ⟨earlier, last, h⟩ := List.eq_nil_or_concat s.repaints
  · rw [h] at hr
    cases hr
  rw [List.concat_eq_append] at h
  have hlast : last ∈ s.repaints := by
    rw [h]
    exact List.mem_concat_self
  rw [H.last last (by rw [h, List.getLast?_concat]; rfl)] at hnew
  refine hnew (String.toList_inj.1 ?_)
  exact (H.le_last h hr).eq_of_length_le (hmono last hlast).length_le

theorem flush (H : s.Valid) : (s.call .flush).Valid := by
  unfold Showing.call
  obtain h | ⟨text, htext, hnew, h⟩ := s.painter.flush_cases
  · rw [h]
    dsimp only
    rw [Option.toList_none, List.map_nil, List.append_nil]
    exact { H with }
  · rw [h]
    dsimp only
    refine ⟨?_, ?_, ?_, ?_⟩
    all_goals rw [Option.toList_some, List.map_singleton]
    · exact List.forall_mem_append.2 ⟨H.ends, List.forall_mem_singleton.2 htext⟩
    · exact List.forall_mem_append.2 ⟨H.buffer, List.forall_mem_singleton.2 List.prefix_rfl⟩
    · refine List.pairwise_append.2 ⟨H.increasing, List.pairwise_singleton _ _, ?_⟩
      intro r hr r' hr'
      rw [List.mem_singleton.1 hr']
      exact H.increases htext hnew hr
    · rw [List.getLast?_concat]
      rintro r ⟨⟩
      rfl

theorem call (H : s.Valid) (c : Call) : (s.call c).Valid := by
  cases c with
  | push text => exact H.push text
  | flush => exact H.flush
  | finish => exact empty
  | cancel => exact empty

end Valid

theorem run_valid (calls : List Call) : (run calls).Valid := by
  induction calls using List.reverseRecOn with
  | nil => exact .empty
  | append_singleton calls c ih =>
    rw [run_concat]
    exact ih.call c

example :
    let calls := [.push "<b>a</b>", .flush, .push "</", .flush, .push "i>", .flush]
    (run calls).repaints.map Repaint.text = ["<b>a</b>", "<b>a</b></i>"] := by decide

theorem run_buffer (calls : List Call) : (run calls).painter.buffer = openText calls := by
  induction calls using List.reverseRecOn with
  | nil => rfl
  | append_singleton calls c ih =>
    rw [run_concat, openText_concat, ← ih]
    cases c with
    | push text => rfl
    | flush =>
      obtain h | ⟨text, -, -, h⟩ := (run calls).painter.flush_cases
      all_goals simp [Showing.call, h, Call.resets, Call.pushed]
    | finish => rfl
    | cancel => rfl

/-- A repaint is pending after a push, and after nothing else. -/
theorem run_repaintPending (calls : List Call) :
    (run calls).painter.repaintPending = true ↔
      ∃ earlier text, calls = earlier ++ [.push text] := by
  rcases List.eq_nil_or_concat calls with rfl | ⟨earlier, c, rfl⟩
  · simp [run, Painter.empty]
  rw [List.concat_eq_append, run_concat]
  have hpush : (∃ earlier' text, earlier ++ [c] = earlier' ++ [.push text]) ↔
      ∃ text, c = .push text := by
    constructor
    · intro h
      obtain ⟨earlier', text, h⟩ := h
      exact ⟨text, List.singleton_inj.1 (List.append_inj_right' h rfl)⟩
    · intro h
      obtain ⟨text, rfl⟩ := h
      exact ⟨earlier, text, rfl⟩
  rw [hpush]
  cases c with
  | push text => simp [call, Painter.push]
  | flush =>
    obtain h | ⟨text, -, -, h⟩ := (run earlier).painter.flush_cases
    all_goals simp [call, h]
  | finish => simp [call, Painter.finish, Painter.empty]
  | cancel => simp [call, Painter.cancel, Painter.empty]

/-- A push asks for a repaint if every push before it has been followed by another call. -/
theorem push_schedules_iff (calls : List Call) (text : String) :
    ((run calls).painter.push text).2 = true ↔
      ∀ earlier text' later, calls = earlier ++ .push text' :: later →
        ∃ c ∈ later, c = .flush ∨ c = .finish ∨ c = .cancel := by
  have hpush : ((run calls).painter.push text).2 = true ↔
      ¬(run calls).painter.repaintPending = true := by
    simp [Painter.push]
  rw [hpush, run_repaintPending]
  constructor
  · rintro hlast earlier text' later rfl
    rcases List.eq_nil_or_concat later with rfl | ⟨later, c, rfl⟩
    · exact absurd ⟨earlier, text', rfl⟩ hlast
    rw [List.concat_eq_append] at hlast ⊢
    refine ⟨c, List.mem_concat_self, ?_⟩
    cases c with
    | push text'' => exact absurd ⟨earlier ++ .push text' :: later, text'', by simp⟩ hlast
    | flush => exact .inl rfl
    | finish => exact .inr (.inl rfl)
    | cancel => exact .inr (.inr rfl)
  · rintro hother ⟨earlier, text', rfl⟩
    obtain ⟨c, hc, -⟩ := hother earlier text' [] rfl
    cases hc

/-- After any calls the buffer is what has been pushed since the last reset, and is painted in full
at the end. Until then each repaint shows more than the one before, and a part of the buffer that
ends with its last closing tag; only the first push after another call asks for one. -/
theorem run_paints (calls : List Call) :
    let s := run calls
    s.painter.buffer = openText calls ∧
    s.painter.finish = (.empty, openText calls) ∧
    s.repaints.Pairwise (fun r r' => r.text.toList <+: r'.text.toList ∧ r.text ≠ r'.text) ∧
    (∀ r ∈ s.repaints, EndsAtTag r.buffer.toList r.text.toList ∧
      r.text.toList <+: r.buffer.toList ∧ r.buffer.toList <+: s.painter.finish.2.toList) ∧
    ∀ text, (s.painter.push text).2 = true ↔
      ∀ earlier text' later, calls = earlier ++ .push text' :: later →
        ∃ c ∈ later, c = .flush ∨ c = .finish ∨ c = .cancel := by
  have H := run_valid calls
  refine ⟨run_buffer calls, ?_, H.increasing, fun r hr => ?_, push_schedules_iff calls⟩
  · rw [Painter.finish, run_buffer]
  · exact ⟨H.ends r hr, (H.ends r hr).text_le, H.buffer r hr⟩

end Showing

end Painter

end StreamedUi.Paint
