import StreamedUi.Model.Request
import StreamedUi.Proofs.Text.Section

/-! Prompts with a marked section. A prompt is taken apart at the first start mark and the first end
mark after it, whatever marks follow and wherever the text of the section comes again, and a prompt
in which no end mark follows a start mark is refused (`Context.ofPrompt?_firstSection`). -/

namespace StreamedUi.Edit

open Text

theorem startMark_ne_nil : startMark.toList ≠ [] := by decide

theorem endMark_ne_nil : endMark.toList ≠ [] := by decide

/-- Somewhere a start mark is followed by an end mark that begins after it. -/
def Marked (prompt : String) : Prop :=
  ∃ before inner after,
    prompt.toList = before ++ startMark.toList ++ inner ++ endMark.toList ++ after

namespace Context

variable {prompt : String} {c : Context}

/-- The two searches for the section meet, so the prompt may as well be cut at its marks. -/
theorem ofPrompt?_eq (prompt : String) :
    ofPrompt? prompt = do
      let (before, rest) ← splitFirst? startMark.toList prompt.toList
      let (inner, after) ← splitFirst? endMark.toList rest
      return ⟨String.ofList inner, String.ofList (trimChars (before ++ after))⟩ := by
  rw [ofPrompt?, firstBetween?_eq startMark_ne_nil]
  cases hstart : splitFirst? startMark.toList prompt.toList with
  | none => rfl
  | some opened =>
    obtain ⟨before, rest⟩ := opened
    show ((splitFirst? endMark.toList rest).map Prod.fst).bind _ =
      (splitFirst? endMark.toList rest).bind _
    cases hend : splitFirst? endMark.toList rest with
    | none => rfl
    | some closed =>
      obtain ⟨inner, after⟩ := closed
      have hfirst := (splitFirst?_eq_some_iff_occursFirst startMark_ne_nil).1 hstart
      have hrest := ((splitFirst?_eq_some_iff endMark_ne_nil).1 hend).1
      show some (Context.mk _ (String.ofList (trimChars (eraseFirst _ prompt.toList)))) = _
      rw [eraseFirst_section startMark_ne_nil hfirst hrest]
      rfl

theorem ofPrompt?_eq_some_iff :
    ofPrompt? prompt = some c ↔ ∃ before rest inner after,
      OccursFirst startMark.toList prompt.toList before rest ∧
        OccursFirst endMark.toList rest inner after ∧
        c = ⟨String.ofList inner, String.ofList (trimChars (before ++ after))⟩ := by
  simp only [ofPrompt?_eq, ← splitFirst?_eq_some_iff_occursFirst startMark_ne_nil,
    ← splitFirst?_eq_some_iff_occursFirst endMark_ne_nil]
  constructor
  · intro h
    obtain ⟨⟨before, rest⟩, hstart, h⟩ := Option.bind_eq_some_iff.1 h
    obtain ⟨⟨inner, after⟩, hend, h⟩ := Option.bind_eq_some_iff.1 h
    exact ⟨before, rest, inner, after, hstart, hend, (Option.some.inj h).symm⟩
  · intro h
    obtain ⟨before, rest, inner, after, hstart, hend, rfl⟩ := h
    rw [hstart]
    show (splitFirst? endMark.toList rest).bind _ = _
    rw [hend]
    rfl

theorem exists_ofPrompt?_iff : (∃ c, ofPrompt? prompt = some c) ↔ Marked prompt := by
  constructor
  · intro h
    obtain ⟨c, hc⟩ := h
    obtain ⟨before, rest, inner, after, hstart, hend, -⟩ := ofPrompt?_eq_some_iff.1 hc
    refine ⟨before, inner, after, ?_⟩
    rw [hstart.eq, hend.eq]
    simp only [List.append_assoc]
  · intro h
    obtain ⟨before, inner, after, heq⟩ := h
    have hmark : startMark.toList <:+: prompt.toList :=
      ⟨before, inner ++ endMark.toList ++ after, by rw [heq]; simp only [List.append_assoc]⟩
    obtain ⟨first, rest, hstart⟩ := OccursFirst.exists startMark_ne_nil hmark
    -- What follows the first start mark has the end mark that follows any other one.
    have hmarked : prompt.toList =
        before ++ startMark.toList ++ (inner ++ endMark.toList ++ after) := by
      rw [heq]
      simp only [List.append_assoc]
    have hsuffix : inner ++ endMark.toList ++ after <:+ prompt.toList :=
      ⟨before ++ startMark.toList, hmarked.symm⟩
    have hrest : rest <:+ prompt.toList := ⟨first ++ startMark.toList, hstart.eq.symm⟩
    have hle : (inner ++ endMark.toList ++ after).length ≤ rest.length := by
      have hleast := hstart.least before _ hmarked
      have hlength := congrArg List.length (hmarked.symm.trans hstart.eq)
      simp only [List.length_append] at hlength ⊢
      omega
    have hclosed : endMark.toList <:+: inner ++ endMark.toList ++ after := ⟨inner, after, rfl⟩
    obtain ⟨text, tail, hend⟩ := OccursFirst.exists endMark_ne_nil
      (hclosed.trans (List.suffix_of_suffix_length_le hsuffix hrest hle).isInfix)
    exact ⟨_, ofPrompt?_eq_some_iff.2 ⟨first, rest, text, tail, hstart, hend, rfl⟩⟩

theorem ofPrompt?_eq_none_iff : ofPrompt? prompt = none ↔ ¬Marked prompt := by
  rw [← exists_ofPrompt?_iff, Option.eq_none_iff_forall_ne_some, not_exists]

theorem ofPrompt_eq_error_iff :
    ofPrompt prompt = .error ⟨startMark, endMark⟩ ↔ ¬Marked prompt := by
  rw [← ofPrompt?_eq_none_iff, ofPrompt]
  cases ofPrompt? prompt <;> simp

theorem ofPrompt_eq_ok_iff : ofPrompt prompt = .ok c ↔ ofPrompt? prompt = some c := by
  rw [ofPrompt]
  cases ofPrompt? prompt <;> simp

end Context

theorem tree_eq_error_iff :
    Model.Request.tree prompt = .error .missingContext ↔ ¬Marked prompt := by
  rw [← Context.ofPrompt?_eq_none_iff, Model.Request.tree]
  cases Context.ofPrompt? prompt <;> simp

/-- A prompt has a context if and only if a start mark is followed by an end mark. The first start
mark and the first end mark after it then count: the text between them is the tree's, and the
instruction is what stands before and after them, trimmed. All other prompts are refused. -/
theorem Context.ofPrompt?_firstSection (prompt : String) :
    ((∃ c, ofPrompt? prompt = some c) ↔ Marked prompt) ∧
      (∀ c, ofPrompt? prompt = some c ↔ ∃ before rest inner after,
        OccursFirst startMark.toList prompt.toList before rest ∧
          OccursFirst endMark.toList rest inner after ∧
          c = ⟨String.ofList inner, String.ofList (trimChars (before ++ after))⟩) ∧
      (∀ c, ofPrompt prompt = .ok c ↔ ofPrompt? prompt = some c) ∧
      (ofPrompt prompt = .error ⟨startMark, endMark⟩ ↔ ¬Marked prompt) ∧
      (Model.Request.tree prompt = .error .missingContext ↔ ¬Marked prompt) :=
  ⟨exists_ofPrompt?_iff, fun _ => ofPrompt?_eq_some_iff, fun _ => ofPrompt_eq_ok_iff,
    ofPrompt_eq_error_iff, tree_eq_error_iff⟩

end StreamedUi.Edit
