import StreamedUi.Model.Fallback
import StreamedUi.Text.Blank
import StreamedUi.Yaml.Node
import StreamedUi.Yaml.Writer

/-! Settings of an edit session: the models to ask, the interval between frames and the temperature.
They are read from and written as YAML; a setting that is not there has its default. -/

namespace StreamedUi.Edit
open Numeric Yaml

/-- Settings, all times in milliseconds. -/
structure Config where
  candidates : List Model.Candidate
  frameInterval : Nat
  temperature : Model.Temperature
  deriving DecidableEq, Repr

namespace Config

/-- The models that are asked when the settings name none. -/
def defaultCandidates : List Model.Candidate :=
  [⟨"gemini-2.5-flash", 15000⟩, ⟨"gemini-2.0-flash", 15000⟩, ⟨"gemini-2.5-pro", 20000⟩,
    ⟨"gemini-3.0-pro", 20000⟩]

/-- The settings that an empty text stands for. -/
def default : Config := ⟨defaultCandidates, 16, Model.defaultTemperature⟩

/-- Equality in value, so settings whose temperature is no number do not equal themselves. -/
def same (a b : Config) : Bool :=
  a.candidates == b.candidates && a.frameInterval == b.frameInterval &&
    a.temperature.valueEq b.temperature

/-- Why settings cannot be used. -/
inductive Error
  /-- The text does not have the form of settings. -/
  | malformed
  | emptyId (timeout : Nat)
  | zeroFrameInterval
  deriving DecidableEq, Repr

/-- What is wrong, if the text has the form of settings. -/
def Error.detail? : Error → Option String
  | .malformed => none
  | .emptyId timeout => some ("candidate with timeout " ++ toString timeout ++ "ms has an empty id")
  | .zeroFrameInterval => some "frame_interval_ms must be positive"

/-- What an error says; a text that is no settings at all is reported by its reader. -/
def Error.message? (e : Error) : Option String := e.detail?.map ("Config error: " ++ ·)

/-! ## Reading -/

/-- The members of a mapping under the names of a record. What is missing has no members; a name may
not be repeated, and members of other names are passed over. -/
def fields? (names : List String) : Node → Option (List (String × Node))
  | .mapping members => do
    let members ← members.mapM fun
      | (.scalar _ name, v) => some (name, v)
      | _ => none
    let known := members.filter (names.contains ·.1)
    if (known.map Prod.fst).Nodup then some known else none
  | n => if n.isMissing then some [] else none

/-- The items of a sequence; nothing stands for none. -/
def items? : Node → Option (List Node)
  | .sequence items => some items
  | n => if n.isMissing then some [] else none

/-- The text of a scalar, even of one that would read as a number. -/
def text? : Node → Option String
  | .scalar _ s => some s
  | _ => none

/-- A time: a plain scalar that is a natural number of a machine word. -/
def milliseconds? : Node → Option Nat
  | .scalar true s => (natural? s).filter (· < Nat.pow 2 64)
  | _ => none

/-- A temperature is read as a `binary64` first. -/
def temperature? : Node → Option Model.Temperature
  | .scalar true s => (number? s).map (·.convert binary32)
  | _ => none

/-- A model and its time limit, both of which have to be given. -/
def candidate? (n : Node) : Option Model.Candidate := do
  let fields ← fields? ["id", "timeout_ms"] n
  let id ← (fields.lookup "id").bind text?
  let timeout ← (fields.lookup "timeout_ms").bind milliseconds?
  return ⟨id, timeout⟩

/-- The value of a field that may be missing. -/
def field? {α : Type} (fields : List (String × Node)) (name : String) (read? : Node → Option α)
    (default : α) : Option α :=
  match fields.lookup name with
  | none => some default
  | some n => read? n

/-- The settings of a document, not yet validated. -/
def ofNode? (n : Node) : Option Config := do
  let fields ← fields? ["candidates", "frame_interval_ms", "temperature"] n
  let candidates ← field? fields "candidates" (fun n => (items? n).bind (·.mapM candidate?))
    defaultCandidates
  let frameInterval ← field? fields "frame_interval_ms" milliseconds? default.frameInterval
  let temperature ← field? fields "temperature" temperature? default.temperature
  return ⟨candidates, frameInterval, temperature⟩

/-- Settings that can be used: every candidate has an id, and frames take time. -/
def validate (c : Config) : Except Error Config :=
  match c.candidates.find? (Text.isBlankText ·.id) with
  | some candidate => .error (.emptyId candidate.timeout)
  | none => if c.frameInterval = 0 then .error .zeroFrameInterval else .ok c

/-- The settings of a text, if they can be used. -/
def ofYaml (s : String) : Except Error Config :=
  match (Node.ofText? s).bind ofNode? with
  | some c => c.validate
  | none => .error .malformed

/-! ## Writing -/

/-- A number always has a point or a power of ten. -/
def numberLayout : Layout where
  tie := .even
  positional e := -6 ≤ e && e ≤ 12
  wholeMark := true
  plusSign := false
  signedZero := true

/-- A temperature as it is written. -/
def temperatureText : Model.Temperature → String
  | .number x => numberLayout.text x
  | .infinity false => ".inf"
  | .infinity true => "-.inf"
  | .nan => ".nan"

/-- The two lines of a candidate. -/
def candidateText (c : Model.Candidate) : String :=
  "- id: " ++ String.ofList (scalarLine 4 c.id) ++
    "  timeout_ms: " ++ toString c.timeout ++ "\n"

/-- The text of settings, with every field written. -/
def toYaml (c : Config) : String :=
  (if c.candidates.isEmpty then "candidates: []\n"
    else "candidates:\n" ++ String.join (c.candidates.map candidateText)) ++
  "frame_interval_ms: " ++ toString c.frameInterval ++ "\n" ++
  "temperature: " ++ temperatureText c.temperature ++ "\n"

/-- Whether the written settings read as equal ones. -/
def roundTrips (c : Config) : Bool :=
  match ofYaml c.toYaml with
  | .ok c' => c'.same c
  | .error _ => false

end Config

end StreamedUi.Edit
