import Mathlib.Algebra.BigOperators.Group.List.Basic
import StreamedUi.Proofs.Patch.Apply

/-! Runs of a patcher. `Patcher.History` reads off a sequence of calls, without a patcher, which
texts have been pushed and how each of them ended; `Patcher.Session` makes the calls. Whatever the
calls and however the texts are cut, the session's tree is the one that the texts of the history
give, the counts add up to what the calls returned, and nothing but the unfinished line is held
(`Session.run_start`). -/

namespace StreamedUi.Patcher

/-- A call of a patcher. -/
inductive Call
  | push (chunk : String)
  | finish
  | reset
  deriving DecidableEq, Repr

/-! ## What the calls say -/

/-- A text that was pushed, and whether it was finished. It was reset, or is still open, if not. -/
structure Segment where
  text : String
  finished : Bool
  deriving DecidableEq, Repr

/-- The part of the text that reaches the tree: without an end, only complete lines. -/
def Segment.applied (s : Segment) : String :=
  if s.finished then s.text else Text.throughLastNewline s.text

/-- What has been pushed, and how it was divided into texts. -/
structure History where
  /-- The segments that have ended, in order. -/
  ended : List Segment := []
  /-- What has been pushed since. -/
  pushed : String := ""
  deriving DecidableEq, Repr

namespace History

/-- What a call adds to the history. -/
def call (h : History) : Call → History
  | .push chunk => { h with pushed := h.pushed ++ chunk }
  | .finish => ⟨h.ended ++ [⟨h.pushed, true⟩], ""⟩
  | .reset => ⟨h.ended ++ [⟨h.pushed, false⟩], ""⟩

/-- The history of some calls. -/
def ofCalls (calls : List Call) : History := calls.foldl call {}

/-- All texts, the open one last. -/
def segments (h : History) : List Segment := h.ended ++ [⟨h.pushed, false⟩]

/-- The texts that reach the tree, in order. -/
def texts (h : History) : List String := h.segments.map Segment.applied

theorem texts_eq (h : History) :
    h.texts = h.ended.map Segment.applied ++ [Text.throughLastNewline h.pushed] := by
  rw [texts, segments, List.map_append, List.map_singleton]
  rfl

theorem texts_end (h : History) (finished : Bool) :
    (History.mk (h.ended ++ [⟨h.pushed, finished⟩]) "").texts =
      h.ended.map Segment.applied ++ [Segment.applied ⟨h.pushed, finished⟩] ++ [""] := by
  rw [texts_eq, List.map_append, List.map_singleton]
  rfl

theorem foldl_push (h : History) (chunks : List String) :
    (chunks.map .push).foldl call h = { h with pushed := h.pushed ++ String.join chunks } := by
  induction chunks generalizing h with
  | nil => simp
  | cons chunk chunks ih =>
    rw [List.map_cons, List.foldl_cons, ih, String.join_cons, ← String.append_assoc]
    rfl

theorem ofCalls_chunks (chunks : List String) :
    ofCalls (chunks.map .push ++ [.finish]) = ⟨[⟨String.join chunks, true⟩], ""⟩ := by
  rw [ofCalls, List.foldl_append, foldl_push]
  simp [call]

end History

/-! ## What the patcher does -/

/-- A patcher at work on a tree, and the counts that its calls have returned. -/
structure Session where
  patcher : Patcher := .empty
  tree : Tree
  returned : List Stats := []

namespace Session

/-- A new patcher on a tree. -/
def start (t : Tree) : Session := { tree := t }

/-- One call, and the counts that it returns. -/
def call (s : Session) : Call → Session
  | .push chunk =>
    let (patcher, tree, stats) := s.patcher.push s.tree chunk
    ⟨patcher, tree, s.returned ++ [stats]⟩
  | .finish =>
    let (patcher, tree, stats) := s.patcher.finish s.tree
    ⟨patcher, tree, s.returned ++ [stats]⟩
  | .reset => { s with patcher := s.patcher.reset }

/-- The calls one after another. -/
def run (s : Session) (calls : List Call) : Session := calls.foldl call s

/-- The session has done to `t` what the history says. -/
structure Follows (t : Tree) (h : History) (s : Session) : Prop where
  pending : s.patcher.pending = Text.afterLastNewline h.pushed
  applied : (s.tree, s.patcher.stats) = t.applyTexts h.texts
  counted : s.patcher.stats = s.returned.sum

namespace Follows

variable {t : Tree} {h : History} {s : Session}

theorem start (t : Tree) : Follows t {} (start t) where
  pending := rfl
  applied := (t.applyTexts_concat_empty []).symm
  counted := rfl

theorem push (H : Follows t h s) (chunk : String) :
    Follows t (h.call (.push chunk)) (s.call (.push chunk)) := by
  have hcut : (h.pushed ++ chunk).toList = h.pushed.toList.rdropWhile (· != '\n') ++
      (s.patcher.pending ++ chunk).toList := by
    rw [H.pending, Text.afterLastNewline, String.toList_append, String.toList_append,
      String.toList_ofList, ← List.append_assoc, List.rdropWhile_append_rtakeWhile]
  have hends := Text.EndsLine.rdropWhile h.pushed.toList
  have happlied := H.applied
  rw [h.texts_eq, Text.throughLastNewline] at happlied
  refine ⟨?_, ?_, ?_⟩
  · simp only [Session.call, Patcher.push, History.call, Text.splitAtLastNewline_eq,
      Text.afterLastNewline, hcut, Text.rtakeWhile_append hends]
  · rw [History.texts_eq]
    simp only [Session.call, Patcher.push, History.call, Text.splitAtLastNewline_eq,
      Text.throughLastNewline, hcut, Text.rdropWhile_append hends]
    rw [Tree.applyTexts_concat_append _ _ hends, ← happlied]
  · simp [Session.call, Patcher.push, H.counted]

theorem finish (H : Follows t h s) : Follows t (h.call .finish) (s.call .finish) := by
  have happlied := H.applied
  rw [h.texts_eq, Text.throughLastNewline] at happlied
  have hpushed : h.pushed = String.ofList (h.pushed.toList.rdropWhile (· != '\n') ++
      h.pushed.toList.rtakeWhile (· != '\n')) := by
    rw [List.rdropWhile_append_rtakeWhile, String.ofList_toList]
  refine ⟨rfl, ?_, ?_⟩
  · simp only [History.call, h.texts_end, Tree.applyTexts_concat_empty, Segment.applied, if_true]
    conv_rhs => rw [hpushed]
    rw [Tree.applyTexts_concat_append _ _ (Text.EndsLine.rdropWhile _), ← happlied]
    simp only [Session.call, Patcher.finish, H.pending, Text.afterLastNewline]
  · simp [Session.call, Patcher.finish, H.counted]

theorem reset (H : Follows t h s) : Follows t (h.call .reset) (s.call .reset) := by
  refine ⟨rfl, ?_, H.counted⟩
  have happlied := H.applied
  rw [h.texts_eq] at happlied
  simp only [History.call, h.texts_end, Tree.applyTexts_concat_empty]
  exact happlied

theorem call (H : Follows t h s) (c : Call) : Follows t (h.call c) (s.call c) := by
  cases c with
  | push chunk => exact H.push chunk
  | finish => exact H.finish
  | reset => exact H.reset

theorem run (H : Follows t h s) (calls : List Call) :
    Follows t (calls.foldl History.call h) (s.run calls) := by
  induction calls generalizing h s with
  | nil => exact H
  | cons c calls ih => exact ih (H.call c)

end Follows

/-- Cutting a text into chunks changes neither the tree nor the counts. After any calls the tree is
what the pushed texts make of it, the patcher holds the open line only, and its counts are those
that the calls have returned. -/
theorem run_start (t : Tree) :
    (∀ chunks : List String,
      let s := (start t).run (chunks.map .push ++ [.finish])
      (s.tree, s.patcher.stats) = t.applyText (String.join chunks)) ∧
    ∀ calls : List Call,
      let s := (start t).run calls
      let h := History.ofCalls calls
      '\n' ∉ s.patcher.pending.toList ∧
        s.patcher.pending = Text.afterLastNewline h.pushed ∧
        (s.tree, s.patcher.stats) = t.applyTexts h.texts ∧
        s.patcher.stats = s.returned.sum := by
  refine ⟨fun chunks => ?_, fun calls => ?_⟩
  · have happlied := ((Follows.start t).run (chunks.map .push ++ [.finish])).applied
    rw [← History.ofCalls, History.ofCalls_chunks, History.texts_eq] at happlied
    exact happlied.trans (t.applyTexts_concat_empty [String.join chunks])
  · have H := (Follows.start t).run calls
    refine ⟨?_, H.pending, H.applied, H.counted⟩
    rw [H.pending, Text.afterLastNewline, String.toList_ofList]
    exact Text.newline_notMem_rtakeWhile _

end Session

end StreamedUi.Patcher
