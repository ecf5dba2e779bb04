import Mathlib.Data.List.Basic
import StreamedUi.Text.Search

/-! What the searches in a text find: `splitFirst?` the first occurrence of a piece
(`splitFirst?_eq_some_iff`), `splitLast?` the last one (`splitLast?_eq_some_iff`), and
`takeThrough?` the first occurrence of a character (`takeThrough?_eq_some_iff`). -/

namespace StreamedUi.Text

variable {piece cs before rest : List Char}

/-! ## The first occurrence -/

theorem isPrefixOf?_eq_none_iff : piece.isPrefixOf? cs = none ↔ ¬piece <+: cs := by
  simp only [Option.eq_none_iff_forall_ne_some, ne_eq, List.isPrefixOf?_eq_some_iff_append_eq]
  exact not_exists.symm

theorem splitFirst?_eq_none_iff : splitFirst? piece cs = none ↔ ¬piece <:+: cs := by
  induction cs with
  | nil => simp [splitFirst?, isPrefixOf?_eq_none_iff]
  | cons c cs ih =>
    rw [splitFirst?, List.infix_cons_iff, not_or, ← isPrefixOf?_eq_none_iff]
    cases piece.isPrefixOf? (c :: cs) with
    | none => simp [ih]
    | some rest => simp

/-- A text up to a place, and what a piece that ends there has before its last character. -/
theorem append_dropLast_isPrefix (before piece rest : List Char) :
    before ++ piece.dropLast <+: before ++ piece ++ rest :=
  ((List.prefix_append_right_inj before).2 piece.dropLast_prefix).trans (List.prefix_append _ rest)

/-- The piece stands at the place found, and has not been there in full before. -/
theorem splitFirst?_eq_some_iff (hne : piece ≠ []) :
    splitFirst? piece cs = some (before, rest) ↔
      cs = before ++ piece ++ rest ∧ ¬piece <:+: before ++ piece.dropLast := by
  have hpos : 0 < piece.length := List.length_pos_iff.2 hne
  induction cs generalizing before with
  | nil => simp [splitFirst?, List.isPrefixOf?, hne]
  | cons c cs ih =>
    rw [splitFirst?]
    cases hprefix : piece.isPrefixOf? (c :: cs) with
    | some rest' =>
      have happ := List.isPrefixOf?_eq_some_iff_append_eq.1 hprefix
      simp only [Option.some.injEq, Prod.mk.injEq]
      constructor
      · rintro ⟨rfl, rfl⟩
        refine ⟨happ.symm, fun h => ?_⟩
        have := h.length_le
        rw [List.nil_append, List.length_dropLast] at this
        omega
      · rintro ⟨heq, hfirst⟩
        cases before with
        | nil => exact ⟨rfl, List.append_cancel_left (happ.trans heq)⟩
        | cons b before =>
          refine absurd (List.prefix_of_prefix_length_le ⟨rest', happ⟩
            (heq ▸ append_dropLast_isPrefix (b :: before) piece rest) ?_).isInfix hfirst
          rw [List.length_append, List.length_cons, List.length_dropLast]
          omega
    | none =>
      have hnot := isPrefixOf?_eq_none_iff.1 hprefix
      simp only [Option.map_eq_some_iff, Prod.exists, Prod.mk.injEq]
      constructor
      · rintro ⟨before, rest, hsplit, rfl, rfl⟩
        obtain ⟨rfl, hfirst⟩ := ih.1 hsplit
        refine ⟨rfl, fun h => ?_⟩
        rcases List.infix_cons_iff.1 h with h | h
        · exact hnot (h.trans (append_dropLast_isPrefix (c :: before) piece rest))
        · exact hfirst h
      · rintro ⟨heq, hfirst⟩
        cases before with
        | nil => exact absurd ⟨rest, heq.symm⟩ hnot
        | cons b before =>
          cases heq
          exact ⟨before, rest, ih.2 ⟨rfl, fun h => hfirst (List.infix_cons h)⟩, rfl, rfl⟩

/-! ## The last occurrence -/

theorem splitLast?_eq_none_iff (hne : piece ≠ []) :
    splitLast? piece cs = none ↔ ¬piece <:+: cs := by
  induction cs with
  | nil => simp [splitLast?, hne]
  | cons c cs ih =>
    rw [splitLast?, List.infix_cons_iff, not_or]
    cases h : splitLast? piece cs with
    | none => simp [ih.1 h, ← List.isPrefixOf_iff_prefix]
    | some found =>
      have : piece <:+: cs := Decidable.not_not.1 fun hn => by simp [ih.2 hn] at h
      simp [this]

/-- The piece stands at the place found, and nowhere after it. -/
theorem splitLast?_eq_some_iff (hne : piece ≠ []) :
    splitLast? piece cs = some (before, rest) ↔
      cs = before ++ rest ∧ piece <+: rest ∧ ¬piece <:+: rest.tail := by
  induction cs generalizing before with
  | nil =>
    simp only [splitLast?, List.isEmpty_iff, if_neg hne, reduceCtorEq, false_iff]
    intro h
    obtain ⟨heq, hpiece, -⟩ := h
    rw [(List.append_eq_nil_iff.1 heq.symm).2, List.prefix_nil] at hpiece
    exact hne hpiece
  | cons c cs ih =>
    rw [splitLast?]
    cases hsplit : splitLast? piece cs with
    | none =>
      have hcs := (splitLast?_eq_none_iff hne).1 hsplit
      simp only [List.isPrefixOf_iff_prefix, Option.ite_none_right_eq_some, Option.some.injEq,
        Prod.mk.injEq]
      constructor
      · intro h
        obtain ⟨hpiece, rfl, rfl⟩ := h
        exact ⟨rfl, hpiece, hcs⟩
      · intro h
        obtain ⟨heq, hpiece, -⟩ := h
        rcases List.cons_eq_append_iff.1 heq with ⟨rfl, rfl⟩ | ⟨before, rfl, rfl⟩
        · exact ⟨hpiece, rfl, rfl⟩
        · exact absurd (hpiece.isInfix.trans List.infix_append_right) hcs
    | some found =>
      simp only [Option.some.injEq, Prod.mk.injEq]
      constructor
      · intro h
        obtain ⟨rfl, rfl⟩ := h
        obtain ⟨rfl, hpiece⟩ := ih.1 hsplit
        exact ⟨rfl, hpiece⟩
      · intro h
        obtain ⟨heq, hpiece, hlast⟩ := h
        rcases List.cons_eq_append_iff.1 heq with ⟨rfl, rfl⟩ | ⟨before, rfl, rfl⟩
        · rw [List.tail_cons, ← splitLast?_eq_none_iff hne, hsplit] at hlast
          cases hlast
        · cases hsplit.symm.trans (ih.2 ⟨rfl, hpiece, hlast⟩)
          exact ⟨rfl, rfl⟩

/-! ## The first stop -/

theorem takeThrough?_eq_some_iff {stop : Char} {front : List Char} :
    takeThrough? stop cs = some front ↔
      ∃ mid after, cs = mid ++ stop :: after ∧ front = mid ++ [stop] ∧ stop ∉ mid := by
  induction cs generalizing front with
  | nil => simp [takeThrough?]
  | cons c cs ih =>
    rw [takeThrough?]
    split
    case isTrue hc =>
      rw [Option.some.injEq]
      constructor
      · rintro rfl
        exact ⟨[], cs, by rw [hc]; rfl, by rw [hc]; rfl, List.not_mem_nil⟩
      · intro h
        obtain ⟨mid, after, heq, rfl, hmid⟩ := h
        rcases List.cons_eq_append_iff.1 heq with ⟨rfl, -⟩ | ⟨mid, rfl, -⟩
        · rw [hc]
          rfl
        · exact absurd (hc ▸ List.mem_cons_self) hmid
    case isFalse hc =>
      rw [Option.map_eq_some_iff]
      constructor
      · intro h
        obtain ⟨front, hfront, rfl⟩ := h
        obtain ⟨mid, after, rfl, rfl, hmid⟩ := ih.1 hfront
        exact ⟨c :: mid, after, rfl, rfl, List.not_mem_cons_of_ne_of_not_mem (Ne.symm hc) hmid⟩
      · intro h
        obtain ⟨mid, after, heq, rfl, hmid⟩ := h
        rcases List.cons_eq_append_iff.1 heq with ⟨rfl, hstop⟩ | ⟨mid, rfl, hcs⟩
        · cases hstop
          exact absurd rfl hc
        · have hfound := ih.2 ⟨mid, after, hcs, rfl, List.not_mem_of_not_mem_cons hmid⟩
          exact ⟨mid ++ [stop], hfound, rfl⟩

/-! ## Parts -/

theorem splitOn_cons_self (sep : Char) (cs : List Char) :
    splitOn sep (sep :: cs) = [] :: splitOn sep cs :=
  if_pos rfl

/-- A character that does not separate is put in front of the first part. -/
theorem exists_splitOn_cons {c sep : Char} (h : c ≠ sep) (cs : List Char) :
    ∃ part parts, splitOn sep cs = part :: parts ∧
      splitOn sep (c :: cs) = (c :: part) :: parts := by
  induction cs generalizing c with
  | nil => exact ⟨[], [], rfl, if_neg h⟩
  | cons d ds ih =>
    by_cases hd : d = sep
    · subst hd
      refine ⟨[], splitOn d ds, splitOn_cons_self d ds, ?_⟩
      rw [splitOn, if_neg h, splitOn_cons_self]
    · obtain ⟨part, parts, -, hsplit⟩ := ih hd
      refine ⟨d :: part, parts, hsplit, ?_⟩
      rw [splitOn, if_neg h, hsplit]

theorem splitOn_ne_nil (sep : Char) (cs : List Char) : splitOn sep cs ≠ [] := by
  cases cs with
  | nil => exact List.cons_ne_nil _ _
  | cons c cs =>
    by_cases hc : c = sep
    · rw [hc, splitOn_cons_self]
      exact List.cons_ne_nil _ _
    · obtain ⟨_, _, -, hsplit⟩ := exists_splitOn_cons hc cs
      rw [hsplit]
      exact List.cons_ne_nil _ _

theorem splitOn_append_cons (sep : Char) (cs ds : List Char) :
    splitOn sep (cs ++ sep :: ds) = splitOn sep cs ++ splitOn sep ds := by
  induction cs with
  | nil => exact splitOn_cons_self sep ds
  | cons c cs ih =>
    rw [List.cons_append]
    by_cases hc : c = sep
    · rw [hc, splitOn_cons_self, splitOn_cons_self, ih]
      rfl
    · obtain ⟨part, parts, hpart, hsplit⟩ := exists_splitOn_cons hc cs
      obtain ⟨part', parts', hpart', hsplit'⟩ := exists_splitOn_cons hc (cs ++ sep :: ds)
      rw [ih, hpart] at hpart'
      obtain ⟨rfl, rfl⟩ := List.cons.inj hpart'
      rw [hsplit, hsplit']
      rfl

theorem splitOn_of_notMem {sep : Char} {cs : List Char} (h : sep ∉ cs) : splitOn sep cs = [cs] := by
  induction cs with
  | nil => rfl
  | cons c cs ih =>
    rw [List.mem_cons, not_or] at h
    rw [splitOn, if_neg (Ne.symm h.1), ih h.2]

/-- The parts of a text are all there is to it. -/
theorem splitOn_injective (sep : Char) : Function.Injective (splitOn sep) := by
  intro cs ds h
  induction cs generalizing ds with
  | nil =>
    cases ds with
    | nil => rfl
    | cons d ds =>
      by_cases hd : d = sep
      · rw [hd, splitOn_cons_self] at h
        exact absurd (List.cons.inj h).2.symm (splitOn_ne_nil sep ds)
      · obtain ⟨_, _, -, hsplit⟩ := exists_splitOn_cons hd ds
        rw [hsplit] at h
        cases h
  | cons c cs ih =>
    cases ds with
    | nil =>
      by_cases hc : c = sep
      · rw [hc, splitOn_cons_self] at h
        exact absurd (List.cons.inj h).2 (splitOn_ne_nil sep cs)
      · obtain ⟨_, _, -, hsplit⟩ := exists_splitOn_cons hc cs
        rw [hsplit] at h
        cases h
    | cons d ds =>
      by_cases hc : c = sep <;> by_cases hd : d = sep
      · rw [hc, hd, splitOn_cons_self, splitOn_cons_self] at h
        rw [hc, hd, ih (List.cons.inj h).2]
      · obtain ⟨_, _, -, hsplit⟩ := exists_splitOn_cons hd ds
        rw [hc, splitOn_cons_self, hsplit] at h
        cases h
      · obtain ⟨_, _, -, hsplit⟩ := exists_splitOn_cons hc cs
        rw [hd, splitOn_cons_self, hsplit] at h
        cases h
      · obtain ⟨part, parts, hpart, hsplit⟩ := exists_splitOn_cons hc cs
        obtain ⟨part', parts', hpart', hsplit'⟩ := exists_splitOn_cons hd ds
        rw [hsplit, hsplit'] at h
        cases h
        rw [ih (hpart.trans hpart'.symm)]

end StreamedUi.Text
