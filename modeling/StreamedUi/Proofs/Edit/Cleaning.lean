import StreamedUi.Proofs.Edit.Reply

/-! Replies with their fences taken out. No fence is left, since the backticks on the two sides of a
fence that is taken out do not meet: one that stands before it would have been part of it
(`fence_notInfix_removeFences`). So cleaning takes out fences and white space around the rest, and
nothing more (`cleanReply_clean`). -/

namespace StreamedUi.Edit

open Text

variable {c : Char} {cs ds : List Char}

/-- The backticks of a fence. -/
def fence : List Char := ['\x60', '\x60', '\x60']

/-- The second text is the first one without some fences, each with the name of a language and a
newline behind it or without. -/
inductive LosesFences : List Char → List Char → Prop
  | nil : LosesFences [] []
  | keep (c : Char) {cs ds : List Char} : LosesFences cs ds → LosesFences (c :: cs) (c :: ds)
  | fence {name newline cs ds : List Char} : name ∈ languageNames → newline ∈ [[], ['\n']] →
    LosesFences cs ds → LosesFences (fence ++ (name ++ (newline ++ cs))) ds

theorem dropNewline_eq (cs : List Char) :
    ∃ newline ∈ [[], ['\n']], cs = newline ++ dropNewline cs := by
  unfold dropNewline
  split
  · exact ⟨['\n'], List.mem_cons_of_mem _ (List.mem_singleton_self _), rfl⟩
  · exact ⟨[], List.mem_cons_self, rfl⟩

theorem losesFences_removeFences (cs : List Char) : LosesFences cs (removeFences cs) := by
  induction cs using removeFences.induct with
  | case1 =>
    rw [removeFences]
    exact .nil
  | case2 cs ih =>
    obtain ⟨name, hname, hcs⟩ := dropLanguage_eq cs
    obtain ⟨newline, hnewline, hrest⟩ := dropNewline_eq (dropLanguage cs)
    rw [removeFences]
    rw [hrest] at hcs
    conv_lhs => rw [hcs]
    exact .fence hname hnewline ih
  | case3 c cs hfence ih =>
    rw [removeFences]
    · exact .keep c ih
    · exact hfence

/-! ## What is left has no fence -/

theorem removeFences_cons (h : ¬fence <+: c :: cs) :
    removeFences (c :: cs) = c :: removeFences cs := by
  rw [removeFences]
  rintro rest rfl rfl
  exact h ⟨rest, rfl⟩

/-- A backtick comes first only in a text that begins with one, be it of a fence or not. -/
theorem exists_of_removeFences_eq_cons (h : removeFences cs = '\x60' :: ds) :
    ∃ rest, cs = '\x60' :: rest := by
  cases cs with
  | nil =>
    rw [removeFences] at h
    cases h
  | cons c cs =>
    by_cases hfence : fence <+: c :: cs
    · obtain ⟨rest, hrest⟩ := hfence
      exact ⟨_, hrest.symm⟩
    · rw [removeFences_cons hfence] at h
      cases h
      exact ⟨cs, rfl⟩

theorem fence_notInfix_removeFences (cs : List Char) : ¬fence <:+: removeFences cs := by
  induction cs using removeFences.induct with
  | case1 =>
    rw [removeFences, List.infix_nil]
    exact List.cons_ne_nil _ _
  | case2 cs ih =>
    rw [removeFences]
    exact ih
  | case3 c cs hfence ih =>
    have hcons : ¬fence <+: c :: cs := by
      intro h
      obtain ⟨rest, hrest⟩ := h
      cases hrest
      exact hfence rest rfl rfl
    rw [removeFences_cons hcons, List.infix_cons_iff]
    rintro (h | h)
    · obtain ⟨rest, hrest⟩ := h
      obtain ⟨rfl, hkept⟩ := List.cons.inj hrest
      -- The next two backticks stand in the text one after the other, so it has a fence here.
      obtain ⟨cs, rfl⟩ := exists_of_removeFences_eq_cons hkept.symm
      have hnext : ¬fence <+: '\x60' :: cs := by
        intro h
        obtain ⟨rest', hrest'⟩ := h
        cases hrest'
        exact hfence _ rfl rfl
      rw [removeFences_cons hnext] at hkept
      obtain ⟨cs, rfl⟩ := exists_of_removeFences_eq_cons (List.cons.inj hkept).2.symm
      exact hfence cs rfl rfl
    · exact ih h

theorem removeFences_eq_self (h : ¬fence <:+: cs) : removeFences cs = cs := by
  induction cs with
  | nil => rw [removeFences]
  | cons c cs ih =>
    rw [List.infix_cons_iff, not_or] at h
    rw [removeFences_cons h.1, ih h.2]

/-! ## Cleaning -/

theorem fence_notInfix_cleanReply (reply : String) : ¬fence <:+: (cleanReply reply).toList := by
  rw [cleanReply, String.toList_ofList]
  intro h
  obtain ⟨tail, -, hkept⟩ := eq_append_trimChars (removeFences reply.toList)
  refine fence_notInfix_removeFences reply.toList (h.trans ?_)
  exact ⟨_, tail, by rw [List.append_assoc, ← hkept]⟩

/-- A cleaned reply is the reply without fences and without the white space around the rest. It has
no fence, neither end is white space, and there is nothing left to clean. -/
theorem cleanReply_clean (reply : String) :
    ¬fence <:+: (cleanReply reply).toList ∧
      (∀ c, (cleanReply reply).toList.head? = some c → isBlank c = false) ∧
      (∀ c, (cleanReply reply).toList.getLast? = some c → isBlank c = false) ∧
      (∃ front back, Blank front ∧ Blank back ∧
        LosesFences reply.toList (front ++ ((cleanReply reply).toList ++ back))) ∧
      cleanReply (cleanReply reply) = cleanReply reply := by
  have htext : (cleanReply reply).toList = trimChars (removeFences reply.toList) :=
    String.toList_ofList
  refine ⟨fence_notInfix_cleanReply reply, fun c hc => ?_, fun c hc => ?_, ?_, ?_⟩
  · obtain ⟨rest, hrest⟩ := List.head?_eq_some_iff.1 hc
    have hbegins : c :: rest <+: trimChars (removeFences reply.toList) :=
      ⟨[], (List.append_nil _).trans (hrest.symm.trans htext)⟩
    exact isBlank_of_begins hbegins
  · obtain ⟨rest, hrest⟩ := List.getLast?_eq_some_iff.1 hc
    exact isBlank_of_trimChars_eq_concat (htext.symm.trans hrest)
  · obtain ⟨back, hback, hkept⟩ := eq_append_trimChars (removeFences reply.toList)
    refine ⟨_, back, blank_takeWhile (removeFences reply.toList), hback, ?_⟩
    rw [htext, ← hkept]
    exact losesFences_removeFences reply.toList
  · have hclean := removeFences_eq_self (fence_notInfix_cleanReply reply)
    rw [cleanReply, hclean, htext, trimChars_trimChars, cleanReply]

end StreamedUi.Edit
