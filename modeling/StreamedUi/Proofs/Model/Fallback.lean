import Mathlib.Data.List.Forall2
import StreamedUi.Model.Fallback
import StreamedUi.Proofs.Text.Blank

/-! Requests that nobody cancels. The candidates are called one after the other until the first one
that gives a usable reply in time, and each one before it is accounted for by the reason of its
failure (`invoke_account`). What becomes of a call is said by its answer and its time limit alone
(`Attempt.Succeeds`, `Attempt.FailsWith`). -/

namespace StreamedUi.Model

/-- The call of a candidate and the answer to it, if there ever is one: after what time, and
which. -/
structure Attempt where
  candidate : Candidate
  answer : Option (Nat × Answer)

namespace Attempt

/-- How long the call takes: until the answer or until the time limit, whichever comes first. -/
def duration (a : Attempt) : Nat :=
  match a.answer with
  | some (time, _) => min time a.candidate.timeout
  | none => a.candidate.timeout

/-- A reply that comes no later than at the time limit, and that is not all white space. -/
def Succeeds (a : Attempt) (text : String) : Prop :=
  ∃ time, a.answer = some (time, .text text) ∧ time ≤ a.candidate.timeout ∧
    ∃ c ∈ text.toList, Text.isBlank c = false

/-- Why there is no such reply. -/
inductive FailsWith (a : Attempt) : FailureReason → Prop
  | silent : a.answer = none → FailsWith a (.timeout a.candidate.timeout)
  | late {time answer} : a.answer = some (time, answer) → a.candidate.timeout < time →
    FailsWith a (.timeout a.candidate.timeout)
  | backend {time message} : a.answer = some (time, .error message) → time ≤ a.candidate.timeout →
    FailsWith a (.backend message)
  | blank {time text} : a.answer = some (time, .text text) → time ≤ a.candidate.timeout →
    (∀ c ∈ text.toList, Text.isBlank c = true) → FailsWith a .emptyResponse

/-- The failure names the candidate and the reason. -/
def FailsAs (a : Attempt) (f : Failure) : Prop :=
  f.candidate = a.candidate.id ∧ a.FailsWith f.reason

variable {a : Attempt} {text : String} {reason : FailureReason}

theorem FailsWith.not_succeeds (h : a.FailsWith reason) : ¬a.Succeeds text := by
  rintro ⟨time, hanswer, htime, c, hc, hblank⟩
  cases h with
  | silent h => simp [h] at hanswer
  | late h hlate =>
    rw [h, Option.some.injEq, Prod.mk.injEq] at hanswer
    omega
  | backend h _ => simp [h] at hanswer
  | blank h _ hall =>
    rw [h, Option.some.injEq, Prod.mk.injEq, Answer.text.injEq] at hanswer
    obtain ⟨-, rfl⟩ := hanswer
    rw [hall c hc] at hblank
    cases hblank

end Attempt

/-- How a model reacts that answers, or does not, and cancels nothing. -/
def Reaction.answering (answer : Option (Nat × Answer)) : Reaction := { answer }

/-! ## One call -/

theorem Candidate.settle_of_le {c : Candidate} {time : Nat} (h : time ≤ c.timeout)
    (answer : Answer) :
    c.settle (.answering (some (time, answer))) = (c.judge (some answer), time, false) := by
  simp [settle, Reaction.answering, Option.filter_some, h]

theorem Candidate.settle_of_lt {c : Candidate} {time : Nat} (h : c.timeout < time)
    (answer : Answer) :
    c.settle (.answering (some (time, answer))) =
      (.failure (.timeout c.timeout), c.timeout, false) := by
  simp [settle, judge, Reaction.answering, Option.filter_some, Nat.not_le.2 h]

/-- A call is settled by success or by failure. -/
theorem Candidate.settle_cases (c : Candidate) (answer : Option (Nat × Answer)) :
    (∃ text, Attempt.Succeeds ⟨c, answer⟩ text ∧
      c.settle (.answering answer) = (.reply text, Attempt.duration ⟨c, answer⟩, false)) ∨
    ∃ reason, Attempt.FailsWith ⟨c, answer⟩ reason ∧
      c.settle (.answering answer) = (.failure reason, Attempt.duration ⟨c, answer⟩, false) := by
  cases answer with
  | none => exact .inr ⟨_, .silent rfl, rfl⟩
  | some answer =>
    obtain ⟨time, answer⟩ := answer
    have hduration : Attempt.duration ⟨c, some (time, answer)⟩ = min time c.timeout := rfl
    rw [hduration]
    rcases Nat.lt_or_ge c.timeout time with hlate | htime
    · rw [settle_of_lt hlate, Nat.min_eq_right hlate.le]
      exact .inr ⟨_, .late rfl hlate, rfl⟩
    rw [settle_of_le htime, Nat.min_eq_left htime]
    cases answer with
    | error message => exact .inr ⟨_, .backend rfl htime, rfl⟩
    | text s =>
      rw [judge]
      split
      · next hblank => exact .inr ⟨_, .blank rfl htime (Text.isBlankText_iff.1 hblank), rfl⟩
      · next hblank =>
        refine .inl ⟨s, ⟨time, rfl, htime, ?_⟩, rfl⟩
        simpa [Text.isBlankText] using hblank

theorem Attempt.exists_failsWith_iff {a : Attempt} :
    (∃ reason, a.FailsWith reason) ↔ ∀ text, ¬a.Succeeds text := by
  constructor
  · rintro ⟨reason, h⟩ text
    exact h.not_succeeds
  · intro h
    rcases a.candidate.settle_cases a.answer with ⟨text, hsucceeds, -⟩ | ⟨reason, hfails, -⟩
    · exact absurd hsucceeds (h text)
    · exact ⟨reason, hfails⟩

/-! ## All calls -/

/-- The candidates with the answers to them. The n-th call meets the n-th answer, or silence. -/
def attempts (candidates : List Candidate) (script : List (Option (Nat × Answer))) :
    List Attempt :=
  candidates.mapIdx fun n c => ⟨c, script[n]?.join⟩

theorem attempts_cons (c : Candidate) (cs : List Candidate)
    (script : List (Option (Nat × Answer))) :
    attempts (c :: cs) script = ⟨c, script.head?.join⟩ :: attempts cs script.tail := by
  rw [attempts, List.mapIdx_cons, attempts, List.head?_eq_getElem?]
  simp only [List.getElem?_tail]

/-- How long calls take that are made one after the other. -/
def elapsed : List Attempt → Nat
  | [] => 0
  | a :: as => a.duration + elapsed as

/-- Each call starts when the one before it is settled. -/
def callsOf (request : Request) (attempts : List Attempt) : List Call :=
  attempts.mapIdx fun n a => ⟨a.candidate.id, elapsed (attempts.take n), request⟩

/-- The calls that attempts make, the first of them at a given time. -/
def callsFrom (request : Request) (now : Nat) : List Attempt → List Call
  | [] => []
  | a :: as => ⟨a.candidate.id, now, request⟩ :: callsFrom request (now + a.duration) as

theorem callsFrom_eq (request : Request) (now : Nat) (as : List Attempt) :
    callsFrom request now as =
      as.mapIdx fun n a => ⟨a.candidate.id, now + elapsed (as.take n), request⟩ := by
  induction as generalizing now with
  | nil => rfl
  | cons a as ih =>
    rw [callsFrom, ih, List.mapIdx_cons]
    simp only [List.take_succ_cons, elapsed, Nat.add_assoc]
    rfl

theorem callsFrom_zero (request : Request) (as : List Attempt) :
    callsFrom request 0 as = callsOf request as := by
  simp only [callsFrom_eq, Nat.zero_add, callsOf]

/-- Calls until the first success, or all of them. -/
theorem tryFrom_cases (request : Request) (now : Nat) (failures : List Failure)
    (candidates : List Candidate) (script : List (Option (Nat × Answer))) :
    let run := tryFrom request now false failures candidates (script.map .answering)
    (∃ front a back text new, attempts candidates script = front ++ a :: back ∧
      List.Forall₂ Attempt.FailsAs front new ∧ a.Succeeds text ∧
      run.outcome = .ok ⟨a.candidate.id, text, failures ++ new⟩ ∧
      run.calls = callsFrom request now (front ++ [a])) ∨
    ∃ new, List.Forall₂ Attempt.FailsAs (attempts candidates script) new ∧
      run.outcome = .error (.allFailed (failures ++ new)) ∧
      run.calls = callsFrom request now (attempts candidates script) := by
  induction candidates generalizing now failures script with
  | nil => exact .inr ⟨[], .nil, by simp [tryFrom], rfl⟩
  | cons c cs ih =>
    have hreaction : (script.map Reaction.answering).headD .silence =
        .answering script.head?.join := by
      cases script <;> rfl
    have htail : (script.map Reaction.answering).tail = script.tail.map .answering :=
      List.map_tail.symm
    rw [attempts_cons]
    simp only [tryFrom, hreaction, htail]
    rcases c.settle_cases script.head?.join with
      ⟨text, hsucceeds, hsettle⟩ | ⟨reason, hfails, hsettle⟩
    · rw [hsettle]
      refine .inl ⟨[], _, _, text, [], rfl, .nil, hsucceeds, ?_, rfl⟩
      rw [List.append_nil]
      rfl
    · rw [hsettle]
      have hfirst : Attempt.FailsAs ⟨c, script.head?.join⟩ ⟨c.id, reason⟩ := ⟨rfl, hfails⟩
      rcases ih (now + Attempt.duration ⟨c, script.head?.join⟩) (failures ++ [⟨c.id, reason⟩])
        script.tail with
        ⟨front, a, back, text, new, hall, hfront, hsucceeds, houtcome, hcalls⟩ |
        ⟨new, hall, houtcome, hcalls⟩
      · refine .inl ⟨_ :: front, a, back, text, _ :: new, by rw [hall]; rfl, .cons hfirst hfront,
          hsucceeds, ?_, ?_⟩
        · rw [List.append_cons]
          exact houtcome
        · exact congrArg (List.cons _) hcalls
      · refine .inr ⟨_ :: new, .cons hfirst hall, ?_, ?_⟩
        · rw [List.append_cons]
          exact houtcome
        · exact congrArg (List.cons _) hcalls

end StreamedUi.Model
