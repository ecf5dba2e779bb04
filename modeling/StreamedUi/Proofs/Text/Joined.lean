import StreamedUi.Proofs.Text.Lines

/-! Lines that are joined and taken apart again. A line that has neither a newline nor a carriage
return is found again in front of whatever follows its newline (`lines_intercalate_append`). -/

namespace StreamedUi.Text

/-- Neither a newline nor a carriage return is in the text. -/
def IsPlainLine (l : String) : Prop := '\n' ∉ l.toList ∧ '\r' ∉ l.toList

instance (l : String) : Decidable (IsPlainLine l) := inferInstanceAs (Decidable (_ ∧ _))

namespace IsPlainLine

theorem append {l l' : String} (h : IsPlainLine l) (h' : IsPlainLine l') :
    IsPlainLine (l ++ l') := by
  rw [IsPlainLine, String.toList_append, List.mem_append, List.mem_append, not_or, not_or]
  exact ⟨⟨h.1, h'.1⟩, h.2, h'.2⟩

theorem intercalate {sep : String} {ls : List String} (hsep : IsPlainLine sep)
    (h : ∀ l ∈ ls, IsPlainLine l) : IsPlainLine (sep.intercalate ls) := by
  induction ls with
  | nil => exact ⟨List.not_mem_nil, List.not_mem_nil⟩
  | cons l ls ih =>
    obtain ⟨hl, hls⟩ := List.forall_mem_cons.1 h
    cases ls with
    | nil => rwa [String.intercalate_singleton]
    | cons m ls =>
      rw [String.intercalate_cons_cons]
      exact (hl.append hsep).append (ih hls)

end IsPlainLine

theorem intercalate_cons_of_ne_nil (l : String) {ls : List String} (h : ls ≠ []) :
    "\n".intercalate (l :: ls) = l ++ "\n" ++ "\n".intercalate ls := by
  obtain ⟨m, ls, rfl⟩ := List.exists_cons_of_ne_nil h
  exact String.intercalate_cons_cons

/-- A newline at the end is an empty line more. -/
theorem intercalate_concat_empty {ls : List String} (h : ls ≠ []) :
    "\n".intercalate (ls ++ [""]) = "\n".intercalate ls ++ "\n" := by
  induction ls with
  | nil => exact absurd rfl h
  | cons l ls ih =>
    by_cases hls : ls = []
    · subst hls
      simp [String.intercalate_cons_cons]
    · rw [List.cons_append, intercalate_cons_of_ne_nil l hls, String.append_assoc, ← ih hls]
      exact intercalate_cons_of_ne_nil l (List.append_ne_nil_of_left_ne_nil hls [""])

/-- A text that has been joined in is there. -/
theorem infix_intercalate {l : String} {ls : List String} (h : l ∈ ls) :
    l.toList <:+: ("\n".intercalate ls).toList := by
  induction ls with
  | nil => cases h
  | cons m ls ih =>
    by_cases hls : ls = []
    · subst hls
      obtain rfl := List.mem_singleton.1 h
      simp
    · rw [intercalate_cons_of_ne_nil m hls, String.append_assoc, String.toList_append,
        String.toList_append]
      rcases List.mem_cons.1 h with rfl | h
      · exact (List.prefix_append _ _).isInfix
      · exact (ih h).trans ((List.suffix_append _ _).trans (List.suffix_append _ _)).isInfix

theorem lineChars_cons_newline {l : List Char} (h : '\n' ∉ l) (hr : '\r' ∉ l) (rest : List Char) :
    lineChars (l ++ '\n' :: rest) = l :: lineChars rest := by
  induction l with
  | nil => simp [lineChars]
  | cons c l ih =>
    rw [List.mem_cons, not_or] at h hr
    rw [List.cons_append, lineChars, if_neg fun hc => h.1 hc.symm, ih h.2 hr.2]
    exact fun _ hc => absurd hc.symm hr.1

theorem lines_append_newline {l : String} (h : IsPlainLine l) (s : String) :
    lines (l ++ "\n" ++ s) = l :: lines s := by
  have hchars : (l ++ "\n" ++ s).toList = l.toList ++ '\n' :: s.toList := by simp
  rw [lines, hchars, lineChars_cons_newline h.1 h.2, List.map_cons, String.ofList_toList]
  rfl

theorem lines_intercalate_append {ls ls' : List String} (h : ∀ l ∈ ls, IsPlainLine l)
    (hls' : ls' ≠ []) :
    lines ("\n".intercalate (ls ++ ls')) = ls ++ lines ("\n".intercalate ls') := by
  induction ls with
  | nil => rfl
  | cons l ls ih =>
    obtain ⟨hl, hls⟩ := List.forall_mem_cons.1 h
    have hne : ls ++ ls' ≠ [] := List.append_ne_nil_of_right_ne_nil ls hls'
    rw [List.cons_append, intercalate_cons_of_ne_nil l hne, lines_append_newline hl, ih hls,
      List.cons_append]

end StreamedUi.Text
