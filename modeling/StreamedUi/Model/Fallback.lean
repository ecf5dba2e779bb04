import StreamedUi.Model.Request
import StreamedUi.Notice
import StreamedUi.Text.Blank

/-! Asking models in order until one gives a usable reply. Each candidate is called once and has its
own time limit; time is counted in milliseconds from the first call. Calls follow each other without
delay, so a request can only be cancelled beforehand or while a call is under way. -/

namespace StreamedUi.Model

/-- A model that can be asked, and how many milliseconds it has for its reply. -/
structure Candidate where
  id : String
  timeout : Nat
  deriving DecidableEq, Repr

/-- What a model answers with. -/
inductive Answer
  | text (s : String)
  | error (message : String)
  deriving DecidableEq, Repr

/-- How a model reacts to a call, all times since the call. -/
structure Reaction where
  /-- When the request is cancelled. -/
  cancelAfter : Option Nat := none
  answer : Option (Nat × Answer) := none
  deriving DecidableEq, Repr

/-- No answer, and no cancellation. -/
def Reaction.silence : Reaction := {}

/-- Why the reply to a call was not used. -/
inductive FailureReason
  | backend (message : String)
  | timeout (limit : Nat)
  | emptyResponse
  deriving DecidableEq, Repr

/-- What a failed call says. -/
def FailureReason.message : FailureReason → String
  | .backend message => message
  | .timeout limit => "Timeout after " ++ toString limit ++ "ms"
  | .emptyResponse => "Empty response from model"

/-- A call that failed. -/
structure Failure where
  candidate : String
  reason : FailureReason
  deriving DecidableEq, Repr

/-- A usable reply, and the failures before it. -/
structure Invocation where
  candidate : String
  text : String
  failures : List Failure
  deriving DecidableEq, Repr

/-- A call of a model, and when it was made. -/
structure Call where
  candidate : String
  startedAt : Nat
  request : Request
  deriving DecidableEq, Repr

/-- Why no candidate's reply was used. -/
inductive Error
  | allFailed (attempts : List Failure)
  | noCandidates
  | cancelled
  deriving DecidableEq, Repr

/-- The reason why the last attempt failed. -/
def lastMessage (attempts : List Failure) : String :=
  (attempts.getLast?.map (·.reason.message)).getD ""

/-- What a failed request says: of several failures, what the last one says. -/
def Error.message : Error → String
  | .allFailed attempts => "All AI models failed: " ++ lastMessage attempts
  | .noCandidates => "No model candidates configured"
  | .cancelled => "Edit cancelled"

/-- What became of one call. -/
inductive Settlement
  | reply (text : String)
  | failure (reason : FailureReason)
  | cancelled
  deriving DecidableEq, Repr

/-- An answer, if it is there by the time limit; a reply of white space is a failure. -/
def Candidate.judge (c : Candidate) : Option Answer → Settlement
  | some (.text s) => if Text.isBlankText s then .failure .emptyResponse else .reply s
  | some (.error message) => .failure (.backend message)
  | none => .failure (.timeout c.timeout)

/-- How a call ends, after what time, and whether the request is then cancelled. A cancellation
ends the call only if it comes before the call would end by itself. -/
def Candidate.settle (c : Candidate) (r : Reaction) : Settlement × Nat × Bool :=
  let answer := r.answer.filter (·.1 ≤ c.timeout)
  let endsAfter := (answer.map Prod.fst).getD c.timeout
  match r.cancelAfter with
  | none => (c.judge (answer.map Prod.snd), endsAfter, false)
  | some t =>
    if t < endsAfter then (.cancelled, t, true)
    else (c.judge (answer.map Prod.snd), endsAfter, t == endsAfter)

/-- A whole request: how it ended, the calls, the time it took and what it reported. -/
structure Run where
  outcome : Except Error Invocation
  calls : List Call
  elapsed : Nat
  notices : List Notice

/-- A call and what it reported, in front of what follows. -/
def Run.after (call : Call) (notice : Notice) (r : Run) : Run :=
  { r with calls := call :: r.calls, notices := notice :: r.notices }

/-- The candidates from some point on, with the reactions to the calls that are still to come. -/
def tryFrom (request : Request) (now : Nat) (cancelled : Bool) (failures : List Failure) :
    List Candidate → List Reaction → Run
  | [], _ => ⟨.error (.allFailed failures), [], now, []⟩
  | c :: cs, reactions =>
    if cancelled then ⟨.error .cancelled, [], now, []⟩
    else
      let call : Call := ⟨c.id, now, request⟩
      let (settlement, time, cancelled) := c.settle (reactions.headD .silence)
      match settlement with
      | .reply text =>
        ⟨.ok ⟨c.id, text, failures⟩, [call], now + time, [.info ("Model " ++ c.id ++ " succeeded")]⟩
      | .cancelled =>
        ⟨.error .cancelled, [call], now + time,
          [.info ("Edit cancelled while waiting on " ++ c.id)]⟩
      | .failure reason =>
        let failures := failures ++ [⟨c.id, reason⟩]
        (tryFrom request (now + time) cancelled failures cs reactions.tail).after call
          (.warn ("Model " ++ c.id ++ " failed: " ++ reason.message))

/-- Asks the candidates in order. The n-th call meets the n-th reaction, or silence. -/
def invoke (candidates : List Candidate) (request : Request) (cancelled : Bool)
    (reactions : List Reaction) : Run :=
  if candidates.isEmpty then ⟨.error .noCandidates, [], 0, []⟩
  else tryFrom request 0 cancelled [] candidates reactions

end StreamedUi.Model
