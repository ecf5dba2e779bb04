import StreamedUi.Edit.Context
import StreamedUi.Proofs.Edit.Prompt
import StreamedUi.Proofs.Json.Marks
import StreamedUi.Proofs.OrderedMap
import StreamedUi.Proofs.Patch.Apply

/-! Edit prompts taken apart again. The marks around the tree are not escaped inside of it, so the
tree and the instruction come back exactly if no text of the tree has the end mark in it
(`Context.ofPrompt?_wrap`). -/

namespace StreamedUi

open Json

namespace Json.Value

theorem exists_memberChars_eq (sp : Spacing) (depth : Nat) (ms : List (String × Value)) :
    ∃ front, memberChars sp depth ms = front ++ ['\x7d'] := by
  induction ms with
  | nil => exact ⟨sp.lineBreak depth, rfl⟩
  | cons m ms ih =>
    obtain ⟨front, hfront⟩ := ih
    refine ⟨',' :: (sp.lineBreak (depth + 1) ++ stringChars m.1 ++ ':' :: (sp.afterColon ++
      m.2.chars sp (depth + 1) ++ front)), ?_⟩
    rw [memberChars, hfront]
    simp

/-- An object ends with its closing brace. -/
theorem exists_objectChars_eq (sp : Spacing) (depth : Nat) (ms : List (String × Value)) :
    ∃ front, (object ms).chars sp depth = front ++ ['\x7d'] := by
  cases ms with
  | nil => exact ⟨['\x7b'], rfl⟩
  | cons m ms =>
    obtain ⟨front, hfront⟩ := exists_memberChars_eq sp depth ms
    refine ⟨'\x7b' :: (sp.lineBreak (depth + 1) ++ stringChars m.1 ++ ':' :: (sp.afterColon ++
      m.2.chars sp (depth + 1) ++ front)), ?_⟩
    rw [chars, hfront]
    simp

end Json.Value

namespace Edit

theorem isMark_endMark : IsMark endMark.toList := by decide

namespace Context

variable {t : Tree} {instruction : String}

/-- The start mark stands at the very beginning, so only the end mark is looked for. -/
theorem ofPrompt?_wrap_eq (t : Tree) (instruction : String) :
    ofPrompt? (wrap t instruction) =
      (Text.splitFirst? endMark.toList
          (t.toJson.toList ++ endMark.toList ++ instruction.toList)).map
        fun (text, after) => ⟨String.ofList text, String.ofList (Text.trimChars after)⟩ := by
  have hstart (rest : List Char) :
      Text.splitFirst? startMark.toList (startMark.toList ++ rest) = some ([], rest) :=
    (Text.splitFirst?_eq_some_iff (by decide)).2 ⟨rfl, by decide⟩
  have hwrap : (wrap t instruction).toList = startMark.toList ++
      (t.toJson.toList ++ endMark.toList ++ instruction.toList) := by
    simp [wrap]
  rw [ofPrompt?_eq, hwrap, hstart, Option.map_eq_bind]
  rfl

/-- The end mark after the tree is the first one unless a text of the tree has one. -/
theorem splitFirst?_endMark_iff (t : Tree) (after : List Char) :
    Text.splitFirst? endMark.toList (t.toJson.toList ++ endMark.toList ++ after) =
        some (t.toJson.toList, after) ↔
      ¬Occurs endMark.toList t.toValue.texts := by
  have hjson : t.toJson.toList = t.toValue.chars .compact 0 := String.toList_ofList
  have hoccurs := isMark_endMark.infix_chars_iff Spacing.compact_blank 0 t.toValue
  obtain ⟨front, hfront⟩ : ∃ front, t.toValue.chars .compact 0 = front ++ ['\x7d'] :=
    Value.exists_objectChars_eq .compact 0 _
  -- The brace is in no mark, so a mark is before it or after it.
  have hcut (rest : List Char) (hrest : ¬endMark.toList <:+: rest) :
      endMark.toList <:+: front ++ ['\x7d'] ++ rest ↔ endMark.toList <:+: front := by
    rw [List.append_assoc, List.singleton_append, isMark_endMark.infix_cut rfl,
      or_iff_left hrest]
  have htext := hcut [] isMark_endMark.not_infix_nil
  rw [List.append_nil, ← hfront, hoccurs] at htext
  rw [Text.splitFirst?_eq_some_iff isMark_endMark.ne_nil, hjson, hfront,
    hcut _ (by decide), ← htext]
  exact and_iff_right rfl

theorem ofPrompt?_wrap_eq_some_iff :
    ofPrompt? (wrap t instruction) = some ⟨t.toJson, Text.trim instruction⟩ ↔
      ¬Occurs endMark.toList t.toValue.texts := by
  rw [ofPrompt?_wrap_eq, ← splitFirst?_endMark_iff t instruction.toList]
  constructor
  · intro h
    obtain ⟨⟨text, after⟩, hsplit, hcontext⟩ := Option.map_eq_some_iff.1 h
    obtain ⟨htext, -⟩ := Context.mk.inj hcontext
    obtain rfl : text = t.toJson.toList := by rw [← htext, String.toList_ofList]
    have happ := ((Text.splitFirst?_eq_some_iff isMark_endMark.ne_nil).1 hsplit).1
    rw [hsplit, List.append_cancel_left happ]
  · intro h
    rw [h, Option.map_some]
    simp only [String.ofList_toList]
    rfl

/-- Taking apart a prompt that has been put together always gives some context. It has the text of
the tree and the trimmed instruction exactly if the end mark is in no text of the tree. -/
theorem ofPrompt?_wrap (t : Tree) (instruction : String) :
    (∃ c, ofPrompt? (wrap t instruction) = some c) ∧
      (ofPrompt? (wrap t instruction) = some ⟨t.toJson, Text.trim instruction⟩ ↔
        ∀ s ∈ t.toValue.texts, ¬endMark.toList <:+: s.toList) := by
  constructor
  · have hsplit : Text.splitFirst? endMark.toList
        (t.toJson.toList ++ endMark.toList ++ instruction.toList) ≠ none := fun hnone =>
      Text.splitFirst?_eq_none_iff.1 hnone ⟨t.toJson.toList, instruction.toList, rfl⟩
    obtain ⟨found, hfound⟩ := Option.ne_none_iff_exists'.1 hsplit
    rw [ofPrompt?_wrap_eq, hfound]
    exact ⟨_, rfl⟩
  · rw [ofPrompt?_wrap_eq_some_iff, Occurs]
    simp only [not_exists, not_and]

/-- A patch that puts an element with the end mark for its text. -/
def markedRecord : String :=
  "\x7b\"op\":\"add\",\"path\":\"/elements/a\",\"value\":\x7b\"type\":\"Text\"," ++
    "\"props\":\x7b\"text\":\"<<<END_CONTEXT>>>\"\x7d\x7d\x7d"

def markedElement : Element :=
  { key := "a", kind := "Text", props := [("text", .string "<<<END_CONTEXT>>>")] }

/-- The patch is applied, and from then on the tree does not come back: its text is cut off in the
property. -/
theorem ofPrompt?_wrap_markedRecord :
    let patched := Tree.empty.applyLine markedRecord
    patched.2 = true ∧
      ofPrompt? (wrap patched.1 "make it wider") ≠
        some ⟨patched.1.toJson, Text.trim "make it wider"⟩ := by
  intro patched
  have hread : Raw.read? (Text.trimChars markedRecord.toList) =
      some (.object [(pieces "op", .string (pieces "add")),
        (pieces "path", .string (pieces "/elements/a")),
        (pieces "value", .object [(pieces "type", .string (pieces "Text")),
          (pieces "props", .object [(pieces "text", .string (pieces endMark))])])]) := by
    cbv
  have hrecord : Operation.ofLine? markedRecord = some (.put "a" markedElement) :=
    Operation.ofLine?_of_read? hread rfl rfl
  have hpatched : patched = (Tree.empty.apply (.put "a" markedElement), true) := by
    simp only [patched, Tree.applyLine, hrecord]
  have helements : patched.1.elements.toList = [("a", markedElement)] := by
    rw [hpatched]
    exact OrderedMap.toList_insert_of_notMem List.not_mem_nil markedElement
  have hmarked : "<<<END_CONTEXT>>>" ∈ patched.1.toValue.texts := by
    rw [Tree.toValue, helements, hpatched]
    decide
  refine ⟨by rw [hpatched], fun h => ofPrompt?_wrap_eq_some_iff.1 h ?_⟩
  exact ⟨_, hmarked, List.infix_refl _⟩

end Context

end Edit

end StreamedUi
