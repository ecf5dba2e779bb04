import StreamedUi.Edit.Html
import StreamedUi.Proofs.Model.Cancellation
import StreamedUi.Proofs.Text.Blank

/-! Replies without any HTML. What is left of a reply after its fences are taken out is blank if and
only if there was nothing but fences and white space (`blank_removeFences_iff`). A model is chosen
by its reply as it came, so such a reply makes an edit that succeeds with no HTML at all, and no
other reply does (`Editor.edit_html`). -/

namespace StreamedUi.Edit
open Model

variable {c : Char} {cs : List Char}

/-- What may follow the backticks of a fence. A newline after it is white space as well. -/
def languageNames : List (List Char) := [[], ['h', 't', 'm'], ['h', 't', 'm', 'l']]

/-- Nothing but fences and white space. -/
inductive OnlyFences : List Char → Prop
  | nil : OnlyFences []
  | blank {c : Char} {cs : List Char} : Text.isBlank c = true → OnlyFences cs → OnlyFences (c :: cs)
  | fence {name cs : List Char} : name ∈ languageNames → OnlyFences cs →
    OnlyFences ('\x60' :: '\x60' :: '\x60' :: (name ++ cs))

/-! ## What a fence takes out -/

theorem dropLanguage_eq (cs : List Char) :
    ∃ name ∈ languageNames, cs = name ++ dropLanguage cs := by
  unfold dropLanguage
  split
  · exact ⟨['h', 't', 'm', 'l'], by decide, rfl⟩
  · exact ⟨['h', 't', 'm'], by decide, rfl⟩
  · exact ⟨[], by decide, rfl⟩

theorem OnlyFences.of_dropNewline (h : OnlyFences (dropNewline cs)) : OnlyFences cs := by
  unfold dropNewline at h
  split at h
  · exact .blank rfl h
  · exact h

theorem OnlyFences.of_afterFence (h : OnlyFences (afterFence cs)) :
    OnlyFences ('\x60' :: '\x60' :: '\x60' :: cs) := by
  obtain ⟨name, hname, hcs⟩ := dropLanguage_eq cs
  rw [hcs]
  exact .fence hname h.of_dropNewline

/-- A text of fences and white space begins with white space or a backtick. -/
theorem OnlyFences.tail (h : OnlyFences (c :: cs)) (hc : c ≠ '\x60') :
    Text.isBlank c = true ∧ OnlyFences cs := by
  cases h with
  | blank hblank h => exact ⟨hblank, h⟩
  | fence => exact absurd rfl hc

theorem OnlyFences.dropNewline (h : OnlyFences cs) : OnlyFences (dropNewline cs) := by
  unfold Edit.dropNewline
  split
  · exact (h.tail (by decide)).2
  · exact h

theorem OnlyFences.dropLanguage_append {name : List Char} (hname : name ∈ languageNames)
    (h : OnlyFences cs) : dropLanguage (name ++ cs) = cs := by
  have hh {ds : List Char} : cs ≠ 'h' :: ds := by
    rintro rfl
    cases (h.tail (by decide)).1
  have hl {ds : List Char} : cs ≠ 'l' :: ds := by
    rintro rfl
    cases (h.tail (by decide)).1
  simp only [languageNames, List.mem_cons, List.not_mem_nil, or_false] at hname
  rcases hname with rfl | rfl | rfl
  · rw [List.nil_append, dropLanguage]
    · rintro ds rfl
      exact hh rfl
    · rintro ds rfl
      exact hh rfl
  · rw [dropLanguage.eq_def]
    split
    · next heq =>
      simp only [List.cons_append, List.nil_append, List.cons.injEq, true_and] at heq
      exact absurd heq hl
    · next heq =>
      simp only [List.cons_append, List.nil_append, List.cons.injEq, true_and] at heq
      exact heq.symm
    · next h1 h2 => exact absurd rfl (h2 cs)
  · rfl

theorem OnlyFences.afterFence (h : OnlyFences ('\x60' :: '\x60' :: '\x60' :: cs)) :
    OnlyFences (afterFence cs) := by
  generalize hds : '\x60' :: '\x60' :: '\x60' :: cs = ds at h
  cases h with
  | nil => cases hds
  | blank hblank =>
    cases hds
    cases hblank
  | fence hname h =>
    obtain rfl : cs = _ ++ _ := by simpa using hds
    rw [Edit.afterFence, h.dropLanguage_append hname]
    exact h.dropNewline

/-! ## What is left -/

theorem blank_removeFences_iff : Text.Blank (removeFences cs) ↔ OnlyFences cs := by
  induction cs using removeFences.induct with
  | case1 =>
    rw [removeFences]
    exact ⟨fun _ => .nil, fun _ _ hc => absurd hc List.not_mem_nil⟩
  | case2 cs ih =>
    rw [removeFences, ih]
    exact ⟨.of_afterFence, .afterFence⟩
  | case3 c cs hfence ih =>
    have hkeep : removeFences (c :: cs) = c :: removeFences cs := by
      rw [removeFences]
      exact hfence
    rw [hkeep]
    constructor
    · intro h
      obtain ⟨hc, hcs⟩ := List.forall_mem_cons.1 h
      exact .blank hc (ih.1 hcs)
    · intro h
      cases h with
      | blank hblank h => exact List.forall_mem_cons.2 ⟨hblank, ih.2 h⟩
      | fence => exact absurd rfl (hfence _ rfl)

theorem cleanReply_of_onlyFences {reply : String} (h : OnlyFences reply.toList) :
    cleanReply reply = "" := by
  rw [cleanReply, Text.trimChars_eq_nil (blank_removeFences_iff.2 h)]

theorem exists_mem_cleanReply {reply : String} (h : ¬OnlyFences reply.toList) :
    ∃ c ∈ (cleanReply reply).toList, Text.isBlank c = false := by
  rw [cleanReply, String.toList_ofList, ← Text.not_blank_iff, Text.blank_trimChars_iff,
    blank_removeFences_iff]
  exact h

/-! ## Edits -/

/-- An edit with HTML has it from the reply that the models' run ended with. -/
theorem Editor.exists_of_edit_eq_ok {editor : Editor} {html instruction : String}
    {cancelled : Bool} {reactions : List Reaction} {edited : Edited}
    (h : (editor.edit html instruction cancelled reactions).outcome = .ok edited) :
    ∃ request i, (invoke editor.candidates request cancelled reactions).outcome = .ok i ∧
      (editor.edit html instruction cancelled reactions).calls =
        (invoke editor.candidates request cancelled reactions).calls ∧
      edited = ⟨i.candidate, cleanReply i.text⟩ := by
  unfold Editor.edit at h ⊢
  cases hrequest : Request.html? html instruction with
  | none =>
    rw [hrequest] at h
    cases h
  | some request =>
    rw [hrequest] at h
    let full : Request := { request with temperature := editor.config.temperature }
    cases hrun : (invoke editor.candidates full cancelled reactions).outcome with
    | error e =>
      simp only [full] at hrun
      simp only [hrun] at h
      cases h
    | ok i =>
      refine ⟨full, i, hrun, rfl, ?_⟩
      simp only [full] at hrun
      simp only [hrun] at h
      cases h
      rfl

theorem candidate_callsOf (request : Request) (as : List Attempt) :
    (callsOf request as).map Call.candidate = as.map (·.candidate.id) := by
  rw [← callsFrom_zero]
  generalize 0 = now
  induction as generalizing now with
  | nil => rfl
  | cons a as ih => rw [callsFrom, List.map_cons, List.map_cons, ih]

/-- The HTML of an edit is what is left of the reply to the last call, the first one that is more
than white space. There is some HTML in it unless the reply was only fences and white space. -/
theorem Editor.edit_html (editor : Editor) (html instruction : String) (cancelled : Bool)
    (reactions : List Reaction) (edited : Edited)
    (h : (editor.edit html instruction cancelled reactions).outcome = .ok edited) :
    ∃ front a back reply, attemptsOf editor.candidates reactions = front ++ a :: back ∧
      (editor.edit html instruction cancelled reactions).calls.map Call.candidate =
        (front ++ [a]).map (·.candidate.id) ∧
      (∀ b ∈ front, ∃ reason, b.FailsWith reason) ∧ a.Succeeds reply ∧
      edited = ⟨a.candidate.id, cleanReply reply⟩ ∧
      (OnlyFences reply.toList → edited.html = "") ∧
      (¬OnlyFences reply.toList → ∃ c ∈ edited.html.toList, Text.isBlank c = false) := by
  obtain ⟨request, i, hinvoke, hsame, rfl⟩ := exists_of_edit_eq_ok h
  obtain ⟨front, a, back, hall, hcalls, hfailures, hsucceeds, hcandidate⟩ :=
    exists_of_invoke_eq_ok hinvoke
  refine ⟨front, a, back, i.text, hall, ?_, ?_, hsucceeds, by rw [hcandidate],
    cleanReply_of_onlyFences, exists_mem_cleanReply⟩
  · rw [hsame, hcalls, candidate_callsOf]
  · intro b hb
    exact exists_failsWith_of_mem hfailures hb

/-- The second model's reply is in a fence with a language, which is taken out. -/
theorem Editor.edit_html_fenced :
    let reactions : List Reaction :=
      [⟨none, some (0, .text " ")⟩, ⟨none, some (0, .text "```html\n<p>b</p>\n```")⟩]
    let edited : Edited := ⟨"gemini-2.0-flash", "<p>b</p>"⟩
    let run := editHtml .default "<p>a</p>" "bigger" false reactions
    run.outcome = .ok edited ∧
      (∃ (front : List Attempt) (a : Attempt),
        run.calls.map Call.candidate = (front ++ [a]).map (·.candidate.id) ∧
        (∀ b ∈ front, ∃ reason, b.FailsWith reason) ∧ a.candidate.id = "gemini-2.0-flash") ∧
      ∃ c ∈ edited.html.toList, Text.isBlank c = false := by
  intro reactions edited run
  have hcleaned : cleanReply "```html\n<p>b</p>\n```" = "<p>b</p>" := by cbv
  have houtcome : run.outcome = .ok edited := by
    show _ = Except.ok (Edited.mk "gemini-2.0-flash" "<p>b</p>")
    rw [← hcleaned]
    rfl
  obtain ⟨front, a, -, reply, -, hcalls, hfailed, -, hedited, hblank, hhtml⟩ :=
    Editor.edit_html _ _ _ _ _ _ houtcome
  have hsome : ¬OnlyFences reply.toList := by
    intro h
    exact absurd (hblank h) (by decide)
  exact ⟨houtcome, ⟨front, a, hcalls, hfailed, (congrArg Edited.candidate hedited).symm⟩,
    hhtml hsome⟩

/-- A reply of fences alone is an edit without HTML, though the next model would have given some. -/
theorem Editor.edit_html_fencesAlone :
    ¬∀ edited, (editHtml .default "<p>a</p>" "bigger" false
        [⟨none, some (0, .text "```html\n```")⟩, ⟨none, some (0, .text "<p>b</p>")⟩]).outcome =
          .ok edited →
      ∃ c ∈ edited.html.toList, Text.isBlank c = false := by
  intro h
  have hcleaned : cleanReply "```html\n```" = "" := by cbv
  obtain ⟨c, hc, -⟩ := h ⟨"gemini-2.5-flash", cleanReply "```html\n```"⟩ rfl
  rw [hcleaned] at hc
  cases hc

end StreamedUi.Edit
