import StreamedUi.Proofs.Model.Fallback

/-! Requests that may be cancelled, beforehand or while a call is under way. A cancellation that
comes before the call is settled ends the request; one that comes in the same step leaves the call
its result, and is noticed only before a next candidate. Either way the request ends at that instant
and no call starts after it (`invoke_cancelled`). A result is always the reply to the last call
(`exists_of_invoke_eq_ok`). -/

namespace StreamedUi.Model

variable {c : Candidate} {cs candidates : List Candidate} {r : Reaction} {reactions : List Reaction}
  {request : Request} {now n t : Nat} {failures : List Failure} {a : Attempt} {text : String}

theorem Attempt.Succeeds.unique {text' : String} (h : a.Succeeds text) (h' : a.Succeeds text') :
    text = text' := by
  obtain ⟨time, hanswer, -⟩ := h
  obtain ⟨time', hanswer', -⟩ := h'
  rw [hanswer, Option.some.injEq, Prod.mk.injEq, Answer.text.injEq] at hanswer'
  exact hanswer'.2

/-! ## One call -/

/-- The call of a candidate with the answer in a reaction. -/
def Reaction.attempt (r : Reaction) (c : Candidate) : Attempt := ⟨c, r.answer⟩

/-- The request is cancelled before the call is settled. -/
def Reaction.Interrupts (r : Reaction) (c : Candidate) (t : Nat) : Prop :=
  r.cancelAfter = some t ∧ t < (r.attempt c).duration

theorem Candidate.endsAfter_eq (c : Candidate) (r : Reaction) :
    ((r.answer.filter (·.1 ≤ c.timeout)).map Prod.fst).getD c.timeout =
      (r.attempt c).duration := by
  show (c.settle (.answering r.answer)).2.1 = _
  rcases c.settle_cases r.answer with ⟨text, -, h⟩ | ⟨reason, -, h⟩
  · rw [h, Reaction.attempt]
  · rw [h, Reaction.attempt]

theorem Candidate.settle_interrupted (h : r.Interrupts c t) :
    c.settle r = (.cancelled, t, true) := by
  obtain ⟨hcancel, ht⟩ := h
  simp only [settle, hcancel, c.endsAfter_eq, if_pos ht]

/-- A call that is not interrupted is settled as if nobody cancelled the request. -/
theorem Candidate.settle_uninterrupted (h : ∀ t, ¬r.Interrupts c t) :
    c.settle r = ((c.settle (.answering r.answer)).1, (r.attempt c).duration,
      decide (r.cancelAfter = some (r.attempt c).duration)) := by
  cases hcancel : r.cancelAfter with
  | none => simp [settle, Reaction.answering, hcancel, c.endsAfter_eq]
  | some t =>
    have ht : ¬t < (r.attempt c).duration := fun ht => h t ⟨hcancel, ht⟩
    simp [settle, Reaction.answering, hcancel, c.endsAfter_eq, ht, beq_eq_decide]

/-- The first of the candidates is interrupted, or its reply is the result, or it fails and the
request goes on. -/
theorem tryFrom_cons_cases (request : Request) (now : Nat) (failures : List Failure) (c : Candidate)
    (cs : List Candidate) (reactions : List Reaction) :
    let r := reactions.headD .silence
    let run := tryFrom request now false failures (c :: cs) reactions
    let settledAt := now + (r.attempt c).duration
    (∃ t, r.Interrupts c t ∧ run.outcome = .error .cancelled ∧ run.calls = [⟨c.id, now, request⟩] ∧
      run.elapsed = now + t) ∨
    (∀ t, ¬r.Interrupts c t) ∧
      ((∃ text, (r.attempt c).Succeeds text ∧ run.outcome = .ok ⟨c.id, text, failures⟩ ∧
        run.calls = [⟨c.id, now, request⟩] ∧ run.elapsed = settledAt) ∨
      ∃ reason, (r.attempt c).FailsWith reason ∧
        let rest := tryFrom request settledAt (decide (r.cancelAfter = some (r.attempt c).duration))
          (failures ++ [⟨c.id, reason⟩]) cs reactions.tail
        run.outcome = rest.outcome ∧ run.calls = ⟨c.id, now, request⟩ :: rest.calls ∧
          run.elapsed = rest.elapsed) := by
  intro r run settledAt
  by_cases h : ∃ t, r.Interrupts c t
  · obtain ⟨t, ht⟩ := h
    refine .inl ⟨t, ht, ?_⟩
    simp only [run, tryFrom, Bool.false_eq_true, if_false]
    rw [Candidate.settle_interrupted ht]
    exact ⟨rfl, rfl, rfl⟩
  · have h := not_exists.1 h
    refine .inr ⟨h, ?_⟩
    simp only [run, tryFrom, Bool.false_eq_true, if_false]
    rw [Candidate.settle_uninterrupted h]
    rcases c.settle_cases r.answer with ⟨text, hsucceeds, hsettle⟩ | ⟨reason, hfails, hsettle⟩
    · rw [hsettle]
      exact .inl ⟨text, hsucceeds, rfl, rfl, rfl⟩
    · rw [hsettle]
      exact .inr ⟨reason, hfails, rfl, rfl, rfl⟩

theorem tryFrom_cancelled (request : Request) (now : Nat) (failures : List Failure)
    (candidates : List Candidate) (reactions : List Reaction) :
    let run := tryFrom request now true failures candidates reactions
    run.calls = [] ∧ run.elapsed = now ∧
      run.outcome = .error (if candidates = [] then .allFailed failures else .cancelled) := by
  cases candidates with
  | nil => exact ⟨rfl, rfl, rfl⟩
  | cons c cs => exact ⟨rfl, rfl, rfl⟩

/-! ## All calls -/

/-- The candidates with the answers in the reactions to them. -/
def attemptsOf (candidates : List Candidate) (reactions : List Reaction) : List Attempt :=
  attempts candidates (reactions.map Reaction.answer)

theorem attemptsOf_cons (c : Candidate) (cs : List Candidate) (reactions : List Reaction) :
    attemptsOf (c :: cs) reactions =
      (reactions.headD .silence).attempt c :: attemptsOf cs reactions.tail := by
  cases reactions with
  | nil => exact attempts_cons c cs []
  | cons r reactions => exact attempts_cons c cs _

/-- The request is cancelled `t` after the start of the n-th call, if there is one, and not after
it is settled. -/
structure CancelledIn (candidates : List Candidate) (reactions : List Reaction) (n t : Nat)
    (a : Attempt) : Prop where
  attempt : (attemptsOf candidates reactions)[n]? = some a
  cancel : (reactions.getD n .silence).cancelAfter = some t
  unsettled : t ≤ a.duration

theorem CancelledIn.tail (h : CancelledIn (c :: cs) reactions (n + 1) t a) :
    CancelledIn cs reactions.tail n t a where
  attempt := by
    have h := h.attempt
    rwa [attemptsOf_cons, List.getElem?_cons_succ] at h
  cancel := by
    have h := h.cancel
    cases reactions with
    | nil => cases h
    | cons r reactions => exact h
  unsettled := h.unsettled

theorem elapsed_take_le {as : List Attempt} {m : Nat} (h : m ≤ n) :
    elapsed (as.take m) ≤ elapsed (as.take n) := by
  induction as generalizing m n with
  | nil => rw [List.take_nil, List.take_nil]
  | cons a as ih =>
    cases m with
    | zero => exact Nat.zero_le _
    | succ m =>
      cases n with
      | zero => cases h
      | succ n => exact Nat.add_le_add_left (ih (Nat.le_of_succ_le_succ h)) _

theorem startedAt_le_of_mem_callsOf {as : List Attempt} {call : Call}
    (h : call ∈ callsOf request (as.take (n + 1))) : call.startedAt ≤ elapsed (as.take n) := by
  obtain ⟨m, hm, rfl⟩ := List.mem_iff_getElem.1 h
  rw [callsOf, List.length_mapIdx, List.length_take] at hm
  have hmn : m ≤ n := Nat.le_of_lt_succ (lt_of_lt_of_le hm (Nat.min_le_left _ _))
  simp only [callsOf, List.getElem_mapIdx, List.take_take,
    Nat.min_eq_left (Nat.le_succ_of_le hmn)]
  exact elapsed_take_le hmn

/-- How a request ends that is cancelled `t` after the start of a call. -/
structure EndsCancelled (a : Attempt) (t : Nat) (isLast : Prop)
    (outcome : Except Error Invocation) : Prop where
  interrupted : t < a.duration → outcome = .error .cancelled
  /-- A reply in the same step is the result. -/
  replied : t = a.duration → ∀ text, a.Succeeds text →
    ∃ failures, outcome = .ok ⟨a.candidate.id, text, failures⟩
  failed : t = a.duration → ∀ reason, a.FailsWith reason → ¬isLast → outcome = .error .cancelled
  /-- Without a next candidate the cancellation is not noticed any more. -/
  exhausted : t = a.duration → ∀ reason, a.FailsWith reason → isLast →
    ∃ attempts, outcome = .error (.allFailed attempts)

theorem EndsCancelled.of_lt {isLast : Prop} (h : t < a.duration) :
    EndsCancelled a t isLast (.error .cancelled) where
  interrupted _ := rfl
  replied ht := absurd h (ht ▸ lt_irrefl _)
  failed ht := absurd h (ht ▸ lt_irrefl _)
  exhausted ht := absurd h (ht ▸ lt_irrefl _)

theorem EndsCancelled.of_succeeds {isLast : Prop} (h : a.Succeeds text) :
    EndsCancelled a a.duration isLast (.ok ⟨a.candidate.id, text, failures⟩) where
  interrupted ht := absurd ht (lt_irrefl _)
  replied _ text' h' := by
    obtain rfl := h.unique h'
    exact ⟨failures, rfl⟩
  failed _ _ h' := absurd h h'.not_succeeds
  exhausted _ _ h' := absurd h h'.not_succeeds

theorem EndsCancelled.of_failsWith {isLast : Prop} [Decidable isLast] {reason : FailureReason}
    (h : a.FailsWith reason) :
    EndsCancelled a a.duration isLast
      (.error (if isLast then .allFailed failures else .cancelled)) where
  interrupted ht := absurd ht (lt_irrefl _)
  replied _ text h' := absurd h' h.not_succeeds
  failed _ _ _ hlast := by rw [if_neg hlast]
  exhausted _ _ _ hlast := ⟨failures, by rw [if_pos hlast]⟩

/-- The case of the first call. -/
theorem tryFrom_cancelledIn_first (request : Request) (now : Nat) (failures : List Failure)
    (h : CancelledIn (c :: cs) reactions 0 t a) :
    let run := tryFrom request now false failures (c :: cs) reactions
    run.calls = [⟨c.id, now, request⟩] ∧ run.elapsed = now + t ∧
      EndsCancelled a t (cs = []) run.outcome := by
  have hattempt := h.attempt
  rw [attemptsOf_cons, List.getElem?_cons_zero, Option.some.injEq] at hattempt
  subst hattempt
  have hcancel : (reactions.headD .silence).cancelAfter = some t := by
    rw [← h.cancel]
    cases reactions <;> rfl
  intro run
  rcases tryFrom_cons_cases request now failures c cs reactions with
    ⟨t', ⟨hcancel', ht'⟩, houtcome, hcalls, helapsed⟩ | ⟨hopen, hsettled⟩
  · obtain rfl : t = t' := Option.some.inj (hcancel.symm.trans hcancel')
    exact ⟨hcalls, helapsed, houtcome ▸ .of_lt ht'⟩
  obtain rfl : t = ((reactions.headD .silence).attempt c).duration :=
    le_antisymm h.unsettled (not_lt.1 fun hlt => hopen t ⟨hcancel, hlt⟩)
  rcases hsettled with ⟨text, hsucceeds, houtcome, hcalls, helapsed⟩ |
    ⟨reason, hfails, houtcome, hcalls, helapsed⟩
  · exact ⟨hcalls, helapsed, houtcome ▸ .of_succeeds hsucceeds⟩
  · -- The cancellation is noticed before the next candidate.
    rw [decide_eq_true hcancel] at houtcome hcalls helapsed
    obtain ⟨hnone, hnow, hcancelled⟩ := tryFrom_cancelled request
      (now + ((reactions.headD .silence).attempt c).duration) (failures ++ [⟨c.id, reason⟩]) cs
      reactions.tail
    refine ⟨hcalls.trans (congrArg _ hnone), helapsed.trans hnow, ?_⟩
    rw [houtcome.trans hcancelled]
    exact .of_failsWith hfails

/-- A run that is cancelled during its n-th call ends at that instant and with that call. -/
theorem tryFrom_cancelledIn (h : CancelledIn candidates reactions n t a)
    (hmade : n < (tryFrom request now false failures candidates reactions).calls.length) :
    let run := tryFrom request now false failures candidates reactions
    let all := attemptsOf candidates reactions
    run.calls = callsFrom request now (all.take (n + 1)) ∧
      run.elapsed = now + elapsed (all.take n) + t ∧
      EndsCancelled a t (n + 1 = candidates.length) run.outcome := by
  induction n generalizing now failures candidates reactions with
  | zero =>
    cases candidates with
    | nil => cases h.attempt
    | cons c cs =>
      obtain ⟨hcalls, helapsed, hends⟩ := tryFrom_cancelledIn_first request now failures h
      have hlast : (0 + 1 = (c :: cs).length) = (cs = []) := by simp
      refine ⟨?_, helapsed, hlast ▸ hends⟩
      rw [hcalls, attemptsOf_cons]
      rfl
  | succ n ih =>
    cases candidates with
    | nil => cases h.attempt
    | cons c cs =>
      rw [attemptsOf_cons]
      rcases tryFrom_cons_cases request now failures c cs reactions with
        ⟨-, -, -, hcalls, -⟩ | ⟨-, ⟨-, -, -, hcalls, -⟩ | ⟨reason, -, houtcome, hcalls, helapsed⟩⟩
      · rw [hcalls] at hmade
        cases Nat.lt_of_succ_lt_succ hmade
      · rw [hcalls] at hmade
        cases Nat.lt_of_succ_lt_succ hmade
      rw [hcalls] at hmade
      replace hmade := Nat.lt_of_succ_lt_succ hmade
      -- Another call is made, so the failed one was not cancelled.
      have hopen : decide ((reactions.headD .silence).cancelAfter =
          some ((reactions.headD .silence).attempt c).duration) = false := by
        refine Bool.eq_false_iff.2 fun hcancelled => ?_
        rw [hcancelled, (tryFrom_cancelled ..).1] at hmade
        cases hmade
      rw [hopen] at houtcome hcalls helapsed hmade
      obtain ⟨hrest, hnow, hends⟩ := ih h.tail hmade
      refine ⟨hcalls.trans (congrArg _ hrest), ?_, ?_⟩
      · rw [helapsed, hnow, List.take_succ_cons, elapsed, ← Nat.add_assoc]
      · rw [houtcome]
        simpa only [List.length_cons, Nat.add_right_cancel_iff] using hends

/-- A result is the reply to the last call, and it accounts for the calls before. -/
theorem exists_of_tryFrom_eq_ok {i : Invocation}
    (h : (tryFrom request now false failures candidates reactions).outcome = .ok i) :
    ∃ front a back new, attemptsOf candidates reactions = front ++ a :: back ∧
      (tryFrom request now false failures candidates reactions).calls =
        callsFrom request now (front ++ [a]) ∧
      List.Forall₂ Attempt.FailsAs front new ∧ a.Succeeds i.text ∧
      i.candidate = a.candidate.id ∧ i.failures = failures ++ new := by
  induction candidates generalizing now failures reactions with
  | nil => cases h
  | cons c cs ih =>
    rw [attemptsOf_cons]
    rcases tryFrom_cons_cases request now failures c cs reactions with
      ⟨-, -, houtcome, -, -⟩ | ⟨-, ⟨text, hsucceeds, houtcome, hcalls, -⟩ |
        ⟨reason, hfails, houtcome, hcalls, -⟩⟩
    · rw [houtcome] at h
      cases h
    · rw [houtcome] at h
      cases h
      exact ⟨[], _, _, [], rfl, hcalls, .nil, hsucceeds, rfl, (List.append_nil _).symm⟩
    · cases hcancelled : decide ((reactions.headD .silence).cancelAfter =
          some ((reactions.headD .silence).attempt c).duration) with
      | true =>
        rw [hcancelled] at houtcome
        rw [houtcome, (tryFrom_cancelled ..).2.2] at h
        cases h
      | false =>
        rw [hcancelled] at houtcome hcalls
        rw [houtcome] at h
        obtain ⟨front, a, back, new, hall, hrest, hfront, hsucceeds, hcandidate, hnew⟩ := ih h
        have hfirst : Attempt.FailsAs ((reactions.headD .silence).attempt c) ⟨c.id, reason⟩ :=
          ⟨rfl, hfails⟩
        refine ⟨_ :: front, a, back, _ :: new, by rw [hall]; rfl, hcalls.trans (congrArg _ hrest),
          .cons hfirst hfront, hsucceeds, hcandidate, ?_⟩
        rw [hnew, List.append_assoc]
        rfl

theorem exists_failsWith_of_mem {front : List Attempt} {failures : List Failure}
    (h : List.Forall₂ Attempt.FailsAs front failures) {a : Attempt} (ha : a ∈ front) :
    ∃ reason, a.FailsWith reason := by
  induction h with
  | nil => cases ha
  | cons hfirst _ ih =>
    rcases List.mem_cons.1 ha with rfl | ha
    · exact ⟨_, hfirst.2⟩
    · exact ih ha

theorem exists_of_invoke_eq_ok {cancelled : Bool} {i : Invocation}
    (h : (invoke candidates request cancelled reactions).outcome = .ok i) :
    ∃ front a back, attemptsOf candidates reactions = front ++ a :: back ∧
      (invoke candidates request cancelled reactions).calls = callsOf request (front ++ [a]) ∧
      List.Forall₂ Attempt.FailsAs front i.failures ∧ a.Succeeds i.text ∧
      i.candidate = a.candidate.id := by
  cases candidates with
  | nil => cases h
  | cons c cs =>
    cases cancelled with
    | true => cases h
    | false =>
      obtain ⟨front, a, back, new, hall, hcalls, hfront, hsucceeds, hcandidate, hnew⟩ :=
        exists_of_tryFrom_eq_ok h
      rw [callsFrom_zero] at hcalls
      rw [List.nil_append] at hnew
      exact ⟨front, a, back, hall, hcalls, hnew ▸ hfront, hsucceeds, hcandidate⟩

/-- A request that is cancelled beforehand makes no call. One that is cancelled during a call, or in
the step that settles it, ends at that instant, and no call starts later: without a result if the
call was not settled, and else with the result of the call, unless that is a failure and another
candidate remains. A result is always the reply to the last call. -/
theorem invoke_cancelled (candidates : List Candidate) (request : Request) (cancelled : Bool)
    (reactions : List Reaction) :
    let run := invoke candidates request cancelled reactions
    let all := attemptsOf candidates reactions
    (cancelled = true → run.calls = [] ∧
      run.outcome = .error (if candidates = [] then .noCandidates else .cancelled)) ∧
    (∀ n t a, CancelledIn candidates reactions n t a → n < run.calls.length →
      run.calls = callsOf request (all.take (n + 1)) ∧
      run.elapsed = elapsed (all.take n) + t ∧
      (∀ call ∈ run.calls, call.startedAt ≤ elapsed (all.take n) + t) ∧
      EndsCancelled a t (n + 1 = candidates.length) run.outcome) ∧
    ∀ i, run.outcome = .ok i → ∃ front a, front ++ [a] <+: all ∧
      run.calls = callsOf request (front ++ [a]) ∧ a.Succeeds i.text ∧
      i.candidate = a.candidate.id := by
  intro run all
  refine ⟨?_, ?_, ?_⟩
  · rintro rfl
    cases candidates <;> exact ⟨rfl, rfl⟩
  · intro n t a h hmade
    cases candidates with
    | nil => cases hmade
    | cons c cs =>
      cases cancelled with
      | true => cases hmade
      | false =>
        obtain ⟨hcalls, helapsed, hends⟩ := tryFrom_cancelledIn h hmade
        rw [callsFrom_zero] at hcalls
        refine ⟨hcalls, helapsed.trans (by rw [Nat.zero_add]), ?_, hends⟩
        intro call hcall
        have hcall : call ∈ callsOf request (all.take (n + 1)) := hcalls ▸ hcall
        exact Nat.le_add_right_of_le (startedAt_le_of_mem_callsOf hcall)
  · intro i hi
    obtain ⟨front, a, back, hall, hcalls, -, hsucceeds, hcandidate⟩ := exists_of_invoke_eq_ok hi
    refine ⟨front, a, ⟨back, ?_⟩, hcalls, hsucceeds, hcandidate⟩
    rw [List.append_assoc]
    exact hall.symm

/-- A second candidate whose reply comes in the step of the cancellation. -/
theorem invoke_cancelled_lastReply :
    let candidates : List Candidate := [⟨"first", 20⟩, ⟨"second", 20⟩]
    let reactions : List Reaction :=
      [⟨none, some (5, .error "busy")⟩, ⟨some 7, some (7, .text "<p></p>")⟩]
    let a : Attempt := ⟨⟨"second", 20⟩, some (7, .text "<p></p>")⟩
    let request : Request := ⟨"", "", defaultTemperature⟩
    let run := invoke candidates request false reactions
    (invoke candidates request true reactions).calls = [] ∧
      CancelledIn candidates reactions 1 7 a ∧ 1 < run.calls.length ∧ run.elapsed = 12 ∧
      (∀ call ∈ run.calls, call.startedAt ≤ 12) ∧ a.Succeeds "<p></p>" ∧
      (∃ failures, run.outcome = .ok ⟨"second", "<p></p>", failures⟩) ∧
      ∃ front last, run.calls = callsOf request (front ++ [last]) ∧ last.Succeeds "<p></p>" := by
  intro candidates reactions a request run
  have hcancelled : CancelledIn candidates reactions 1 7 a := ⟨rfl, rfl, by decide⟩
  have hmade : 1 < run.calls.length := by decide
  have hsucceeds : a.Succeeds "<p></p>" := ⟨7, rfl, by decide, '<', by decide, by decide⟩
  obtain ⟨-, hduring, hresult⟩ := invoke_cancelled candidates request false reactions
  obtain ⟨-, helapsed, hstarts, hends⟩ := hduring 1 7 a hcancelled hmade
  obtain ⟨failures, houtcome⟩ := hends.replied rfl _ hsucceeds
  obtain ⟨front, last, -, hcalls, hlast, -⟩ := hresult _ houtcome
  exact ⟨((invoke_cancelled candidates request true reactions).1 rfl).1, hcancelled, hmade,
    helapsed, hstarts, hsucceeds, ⟨failures, houtcome⟩, front, last, hcalls, hlast⟩

end StreamedUi.Model
