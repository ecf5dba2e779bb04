import StreamedUi.Text.Blank
import StreamedUi.Text.Search
import StreamedUi.Tree.Json

/-! Edit prompts: an instruction, with the tree that it is about between two marks. -/

namespace StreamedUi.Edit

/-- The mark before a tree. -/
def startMark : String := "<<<CONTEXT>>>"

/-- The mark after a tree. -/
def endMark : String := "<<<END_CONTEXT>>>"

/-- A prompt taken apart. -/
structure Context where
  /-- What stood between the marks. -/
  treeText : String
  /-- All else, trimmed. -/
  instruction : String
  deriving DecidableEq, Repr

namespace Context

/-- A prompt with the tree before the instruction. -/
def wrap (t : Tree) (instruction : String) : String :=
  startMark ++ t.toJson ++ endMark ++ instruction

/-- The parts of a prompt, if it has a marked section: what the marks of the first one enclose, and
the prompt without that section. -/
def ofPrompt? (prompt : String) : Option Context := do
  let treeText ← Text.firstBetween? startMark.toList endMark.toList prompt.toList
  let marked := startMark.toList ++ treeText ++ endMark.toList
  let instruction := Text.trimChars (Text.eraseFirst marked prompt.toList)
  return ⟨String.ofList treeText, String.ofList instruction⟩

/-- Why a prompt is refused: no section of it stands between these two marks. -/
structure Missing where
  opening : String
  closing : String
  deriving DecidableEq, Repr

/-- What the refusal of a prompt says. -/
def Missing.message (m : Missing) : String :=
  "Prompt has no " ++ m.opening ++ "..." ++ m.closing ++ " section"

/-- The parts of a prompt that has to have a marked section. -/
def ofPrompt (prompt : String) : Except Missing Context :=
  match ofPrompt? prompt with
  | some c => .ok c
  | none => .error ⟨startMark, endMark⟩

/-- The tree of a prompt, if its text reads as one. -/
def tree? (c : Context) : Option Tree := Tree.ofJson? c.treeText

/-- The request that a model is given. -/
def editPrompt (c : Context) : String :=
  "EXISTING UI TREE TO EDIT:\n" ++ c.treeText ++ "\n\nUSER'S EDIT REQUEST: \"" ++ c.instruction ++
    "\"\n\nApply ONLY this change to the existing tree. Keep everything else the same.\n" ++
    "Output the complete modified tree as JSONL."

end Context

end StreamedUi.Edit
