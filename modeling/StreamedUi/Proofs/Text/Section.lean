import StreamedUi.Proofs.Text.Search

/-! Sections of a text between an opening piece and a closing one. The first section is found at the
first opening piece (`firstBetween?_eq`), and looking for its whole text leads to that place again,
even where the same text comes back later (`eraseFirst_section`). -/

namespace StreamedUi.Text

variable {piece opening closing inner cs before rest after : List Char}

/-- The piece stands between `before` and `rest`, and nowhere before that place. -/
structure OccursFirst (piece cs before rest : List Char) : Prop where
  eq : cs = before ++ piece ++ rest
  least : ∀ before' rest', cs = before' ++ piece ++ rest' → before.length ≤ before'.length

theorem splitFirst?_eq_some_iff_occursFirst (hne : piece ≠ []) :
    splitFirst? piece cs = some (before, rest) ↔ OccursFirst piece cs before rest := by
  have hpos : 0 < piece.length := List.length_pos_iff.2 hne
  rw [splitFirst?_eq_some_iff hne]
  constructor
  · intro h
    obtain ⟨heq, hfirst⟩ := h
    refine ⟨heq, fun before' rest' heq' => Nat.le_of_not_lt fun hlt => hfirst ?_⟩
    -- An earlier occurrence would end before the last character of this one.
    have hend : before' ++ piece <+: before ++ piece.dropLast := by
      refine List.prefix_of_prefix_length_le (heq' ▸ List.prefix_append _ rest')
        (heq ▸ append_dropLast_isPrefix before piece rest) ?_
      simp only [List.length_append, List.length_dropLast]
      omega
    exact List.infix_append_right.trans hend.isInfix
  · intro h
    refine ⟨h.eq, fun hinfix => ?_⟩
    obtain ⟨before', mid, hmid⟩ := hinfix
    obtain ⟨tail, htail⟩ := append_dropLast_isPrefix before piece rest
    have hle := h.least before' (mid ++ tail) (by
      rw [h.eq, ← htail, ← hmid]
      simp only [List.append_assoc])
    have hlength := congrArg List.length hmid
    simp only [List.length_append, List.length_dropLast] at hlength
    omega

theorem OccursFirst.exists (hne : piece ≠ []) (h : piece <:+: cs) :
    ∃ before rest, OccursFirst piece cs before rest := by
  have hsplit : splitFirst? piece cs ≠ none := fun hnone => splitFirst?_eq_none_iff.1 hnone h
  obtain ⟨found, hfound⟩ := Option.ne_none_iff_exists'.1 hsplit
  exact ⟨_, _, (splitFirst?_eq_some_iff_occursFirst hne).1 hfound⟩

/-- If nothing closes the first opening piece, nothing closes a later one. -/
theorem firstBetween?_eq (hne : opening ≠ []) :
    firstBetween? opening closing cs =
      (splitFirst? opening cs).bind fun found => (splitFirst? closing found.2).map Prod.fst := by
  induction cs with
  | nil =>
    have hprefix : opening.isPrefixOf? [] = none :=
      isPrefixOf?_eq_none_iff.2 fun h => hne (List.prefix_nil.1 h)
    rw [firstBetween?, splitFirst?, hprefix]
    rfl
  | cons c cs ih =>
    rw [firstBetween?, splitFirst?]
    cases hprefix : opening.isPrefixOf? (c :: cs) with
    | none =>
      show firstBetween? opening closing cs = _
      rw [ih, Option.bind_map]
      rfl
    | some rest =>
      rw [Option.bind_some, Option.bind_some]
      cases hclosing : splitFirst? closing rest with
      | some found => rfl
      | none =>
        show firstBetween? opening closing cs = none
        rw [ih, Option.bind_eq_none_iff]
        intro found hfound
        rw [Option.map_eq_none_iff, splitFirst?_eq_none_iff]
        intro hlater
        have hcs := ((splitFirst?_eq_some_iff hne).1 hfound).1
        have happ := List.isPrefixOf?_eq_some_iff_append_eq.1 hprefix
        have hfound : found.2 <:+ c :: cs :=
          hcs ▸ (List.suffix_append _ found.2).trans (List.suffix_cons c _)
        have hle : found.2.length ≤ rest.length := by
          have hlength := congrArg List.length happ
          have hlength' := congrArg List.length hcs
          simp only [List.length_append, List.length_cons] at hlength hlength'
          omega
        have hsuffix : found.2 <:+ rest :=
          List.suffix_of_suffix_length_le hfound ⟨opening, happ⟩ hle
        exact splitFirst?_eq_none_iff.1 hclosing (hlater.trans hsuffix.isInfix)

/-- The first section stands where its text first occurs. -/
theorem eraseFirst_section (hne : opening ≠ []) (hopening : OccursFirst opening cs before rest)
    (hrest : rest = inner ++ closing ++ after) :
    eraseFirst (opening ++ inner ++ closing) cs = before ++ after := by
  have hsection : OccursFirst (opening ++ inner ++ closing) cs before after := by
    refine ⟨?_, fun before' rest' h => hopening.least before' (inner ++ closing ++ rest') ?_⟩
    · rw [hopening.eq, hrest]
      simp only [List.append_assoc]
    · rw [h]
      simp only [List.append_assoc]
  have hne' : opening ++ inner ++ closing ≠ [] := by
    rw [List.append_assoc]
    exact List.append_ne_nil_of_left_ne_nil hne _
  rw [eraseFirst, (splitFirst?_eq_some_iff_occursFirst hne').2 hsection]

end StreamedUi.Text
