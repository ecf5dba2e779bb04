import Mathlib.Algebra.Group.Defs
import StreamedUi.Patch.Stream
import StreamedUi.Proofs.Text.Blank
import StreamedUi.Proofs.Text.Lines

/-! Applying patches to a tree. Of some lines those that are operations are applied, and the other
ones are counted unless they are blank (`applyLines_eq`). Lists of lines and texts cut at a line
ending are applied piece by piece, and the counts add up (`applyLines_append`, `applyText_append`).
-/

namespace StreamedUi

namespace Stats

@[ext]
theorem ext {s t : Stats} (ha : s.applied = t.applied) (hs : s.skipped = t.skipped) : s = t := by
  cases s
  cases t
  exact (mk.injEq ..).mpr ⟨ha, hs⟩

instance : Zero Stats := ⟨.zero⟩

instance : AddCommMonoid Stats where
  add_assoc _ _ _ := Stats.ext (Nat.add_assoc ..) (Nat.add_assoc ..)
  zero_add _ := Stats.ext (Nat.zero_add _) (Nat.zero_add _)
  add_zero _ := Stats.ext (Nat.add_zero _) (Nat.add_zero _)
  add_comm _ _ := Stats.ext (Nat.add_comm ..) (Nat.add_comm ..)
  nsmul := nsmulRec

end Stats

/-- An operation was read as a record, and the record from JSON. -/
theorem Operation.exists_record {line : String} {op : Operation} (h : ofLine? line = some op) :
    ∃ r record, Json.Raw.read? (Text.trimChars line.toList) = some r ∧
      Record.ofRaw? r = some record ∧ ofRecord record = .ok op := by
  rw [ofLine?, parse] at h
  split at h
  next record hrecord =>
    obtain ⟨r, hr, hrecord⟩ := Option.bind_eq_some_iff.1 hrecord
    refine ⟨r, record, hr, hrecord, ?_⟩
    cases hop : ofRecord record with
    | error e =>
      rw [hop] at h
      cases h
    | ok op' =>
      rw [hop] at h
      exact congrArg Except.ok (Option.some.inj h)
  next => cases h

/-- A line is an operation if the JSON in it is a record that asks for one. -/
theorem Operation.ofLine?_of_read? {line : String} {r : Json.Raw} {record : Record} {op : Operation}
    (hr : Json.Raw.read? (Text.trimChars line.toList) = some r)
    (hrecord : Record.ofRaw? r = some record) (hop : ofRecord record = .ok op) :
    ofLine? line = some op := by
  rw [ofLine?, parse, Record.ofLine?, hr, Option.bind_some, hrecord]
  exact congrArg Except.toOption hop

/-- White space is no record. -/
theorem Operation.ofLine?_eq_none_of_blank {line : String} (h : Text.Blank line.toList) :
    ofLine? line = none := by
  have hread : Json.Raw.read? [] = none := rfl
  rw [ofLine?, parse, Record.ofLine?, Text.trimChars_eq_nil h, hread]
  rfl

namespace Tree

/-- The tree after operations, in order. -/
def applyAll (t : Tree) (ops : List Operation) : Tree := ops.foldl apply t

/-- How many lines are neither operations nor blank. -/
def rejected (lines : List String) : Nat :=
  lines.countP fun line => !Text.isBlankText line && (Operation.ofLine? line).isNone

theorem applyLines_eq (t : Tree) (lines : List String) :
    t.applyLines lines =
      (t.applyAll (lines.filterMap Operation.ofLine?),
        ⟨(lines.filterMap Operation.ofLine?).length, rejected lines⟩) := by
  induction lines generalizing t with
  | nil => rfl
  | cons line lines ih =>
    rw [applyLines, rejected, List.countP_cons, ← rejected, List.filterMap_cons]
    split
    · next hblank =>
      rw [Operation.ofLine?_eq_none_of_blank (Text.isBlankText_iff.1 hblank), ih, hblank]
      rfl
    · next hblank =>
      rw [Bool.not_eq_true] at hblank
      rw [applyLine, hblank]
      cases hop : Operation.ofLine? line with
      | none =>
        dsimp only
        rw [ih]
        exact Prod.ext rfl (Stats.ext (Nat.zero_add _) (Nat.add_comm ..))
      | some op =>
        dsimp only
        rw [ih]
        exact Prod.ext rfl (Stats.ext (Nat.add_comm ..) (Nat.zero_add _))

/-- Applies texts one after the other, each as a text of its own. -/
def applyTexts (t : Tree) : List String → Tree × Stats
  | [] => (t, 0)
  | text :: rest =>
    let (t', stats) := t.applyText text
    let (t'', stats') := t'.applyTexts rest
    (t'', stats + stats')

theorem applyLines_append (t : Tree) (lines lines' : List String) :
    t.applyLines (lines ++ lines') =
      (((t.applyLines lines).1.applyLines lines').1,
        (t.applyLines lines).2 + ((t.applyLines lines).1.applyLines lines').2) := by
  induction lines generalizing t with
  | nil => exact Prod.ext rfl (zero_add _).symm
  | cons line lines ih =>
    simp only [List.cons_append, applyLines]
    split
    · exact ih t
    · rw [ih (t.applyLine line).1, add_assoc]

/-- Complete lines may be applied before the rest of their text has come. -/
theorem applyText_append (t : Tree) {done : List Char} (h : Text.EndsLine done)
    (rest : List Char) :
    t.applyText (String.ofList (done ++ rest)) =
      (((t.applyText (String.ofList done)).1.applyText (String.ofList rest)).1,
        (t.applyText (String.ofList done)).2 +
          ((t.applyText (String.ofList done)).1.applyText (String.ofList rest)).2) := by
  simp only [applyText, Text.lines, String.toList_ofList, Text.lineChars_append h, List.map_append]
  exact t.applyLines_append _ _

theorem applyText_empty (t : Tree) : t.applyText "" = (t, 0) := by
  rw [applyText, Text.lines, String.toList_empty]
  rfl

theorem applyTexts_nil (t : Tree) : t.applyTexts [] = (t, 0) := rfl

theorem applyTexts_cons (t : Tree) (text : String) (texts : List String) :
    t.applyTexts (text :: texts) =
      (((t.applyText text).1.applyTexts texts).1,
        (t.applyText text).2 + ((t.applyText text).1.applyTexts texts).2) := rfl

theorem applyTexts_append (t : Tree) (texts texts' : List String) :
    t.applyTexts (texts ++ texts') =
      (((t.applyTexts texts).1.applyTexts texts').1,
        (t.applyTexts texts).2 + ((t.applyTexts texts).1.applyTexts texts').2) := by
  induction texts generalizing t with
  | nil => exact Prod.ext rfl (zero_add _).symm
  | cons text texts ih =>
    rw [List.cons_append, applyTexts_cons, applyTexts_cons, ih (t.applyText text).1, add_assoc]

theorem applyTexts_concat (t : Tree) (texts : List String) (text : String) :
    t.applyTexts (texts ++ [text]) =
      (((t.applyTexts texts).1.applyText text).1,
        (t.applyTexts texts).2 + ((t.applyTexts texts).1.applyText text).2) := by
  rw [applyTexts_append, applyTexts_cons, applyTexts_nil, add_zero]

theorem applyTexts_concat_empty (t : Tree) (texts : List String) :
    t.applyTexts (texts ++ [""]) = t.applyTexts texts := by
  rw [applyTexts_concat, applyText_empty, add_zero]

/-- The last text may be applied in two parts. -/
theorem applyTexts_concat_append (t : Tree) (texts : List String) {done : List Char}
    (h : Text.EndsLine done) (rest : List Char) :
    t.applyTexts (texts ++ [String.ofList (done ++ rest)]) =
      (((t.applyTexts (texts ++ [String.ofList done])).1.applyText (String.ofList rest)).1,
        (t.applyTexts (texts ++ [String.ofList done])).2 +
          ((t.applyTexts (texts ++ [String.ofList done])).1.applyText (String.ofList rest)).2) := by
  simp only [applyTexts_concat, applyText_append _ h, add_assoc]

end Tree

end StreamedUi
