import StreamedUi.Edit.Context
import StreamedUi.Edit.Instructions
import StreamedUi.Numeric.Extended

/-! Requests to a model, for an edit of HTML or of a tree. -/

namespace StreamedUi.Model
open Numeric

/-- How freely a model is to answer. -/
abbrev Temperature := Extended binary32

/-- The temperature of a request that nothing else is said about, 0.3. -/
def defaultTemperature : Temperature := .ofDecimal binary32 false ⟨3, -1⟩

/-- What a model is given. -/
structure Request where
  system : String
  prompt : String
  temperature : Temperature
  deriving DecidableEq, Repr

/-- Why there is no request for an edit of a tree. -/
inductive RequestError
  /-- The prompt has no section with a tree. -/
  | missingContext
  deriving DecidableEq, Repr

/-- What a refused request says. -/
def RequestError.message : RequestError → String
  | .missingContext => "Prompt carries no UI tree context"

namespace Request

/-- The HTML and the instruction, framed for the model. -/
def htmlPrompt (html instruction : String) : String :=
  "Current HTML to modify:\n```html\n" ++ html ++ "\n```\n\nUser's edit request: \"" ++
    instruction ++ "\"\n\nOutput the COMPLETE modified HTML below (no code fences, no explanation):"

/-- The request to change HTML; neither part may be blank. -/
def html? (html instruction : String) : Option Request :=
  if Text.isBlankText html || Text.isBlankText instruction then none
  else
    some ⟨"\n".intercalate Edit.Instructions.html, htmlPrompt html instruction, defaultTemperature⟩

/-- The request to change the tree in a prompt, which has to hold one. -/
def tree (prompt : String) : Except RequestError Request :=
  match Edit.Context.ofPrompt? prompt with
  | some c => .ok ⟨"\n".intercalate Edit.Instructions.tree, c.editPrompt, defaultTemperature⟩
  | none => .error .missingContext

end Request

end StreamedUi.Model
