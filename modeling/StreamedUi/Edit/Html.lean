import StreamedUi.Edit.Config
import StreamedUi.Edit.Reply

/-! Editing HTML: the request goes to the editor's models, and the reply is freed of code fences. -/

namespace StreamedUi.Edit

/-- Edited HTML, and the model it comes from. -/
structure Edited where
  candidate : String
  html : String
  deriving DecidableEq, Repr

/-- Why there is no edited HTML. -/
inductive EditError
  /-- The HTML or the instruction is blank. -/
  | missingInput
  | model (e : Model.Error)
  deriving DecidableEq, Repr

/-- What a refused edit says. -/
def missingInputMessage : String := "Missing html or instruction"

/-- An edit: how it ended, the calls, the time they took and what was reported. -/
structure EditRun where
  outcome : Except EditError Edited
  calls : List Model.Call
  elapsed : Nat
  notices : List Notice

/-- What an edit reports before it asks. -/
def editNotice (html instruction : String) : Notice :=
  .debug ("Editing " ++ toString html.utf8ByteSize ++ " byte(s) of HTML: \"" ++ instruction ++ "\"")

/-- An editor has models of its own, which need not be those of its configuration. -/
structure Editor where
  candidates : List Model.Candidate
  config : Config

/-- Asks the editor's models to change HTML. -/
def Editor.edit (editor : Editor) (html instruction : String) (cancelled : Bool)
    (reactions : List Model.Reaction) : EditRun :=
  match Model.Request.html? html instruction with
  | none => ⟨.error .missingInput, [], 0, []⟩
  | some request =>
    let request := { request with temperature := editor.config.temperature }
    let run := Model.invoke editor.candidates request cancelled reactions
    let outcome := match run.outcome with
      | .ok i => .ok ⟨i.candidate, cleanReply i.text⟩
      | .error e => .error (.model e)
    ⟨outcome, run.calls, run.elapsed, editNotice html instruction :: run.notices⟩

/-- An edit by the configured models. -/
def editHtml (config : Config) (html instruction : String) (cancelled : Bool)
    (reactions : List Model.Reaction) : EditRun :=
  Editor.edit ⟨config.candidates, config⟩ html instruction cancelled reactions

end StreamedUi.Edit
