import StreamedUi.Numeric.Layout
import StreamedUi.Proofs.Numeric.Shortest

/-! The characters that numbers are written with. Whatever the layout, the text of a number is not
empty and has no others (`Layout.isNumeral_chars`), so it ends where another character follows. -/

namespace StreamedUi.Numeric

/-- The characters that numbers are written with. -/
def isNumeralChar (c : Char) : Bool :=
  c.isDigit || c == '-' || c == '+' || c == '.' || c == 'e'

/-- A text of characters that numbers are written with. -/
structure IsNumeral (text : List Char) : Prop where
  ne_nil : text ≠ []
  chars : ∀ c ∈ text, isNumeralChar c = true

namespace IsNumeral

variable {text text' : List Char} {c : Char}

theorem cons (hc : isNumeralChar c = true) (h : ∀ c ∈ text, isNumeralChar c = true) :
    IsNumeral (c :: text) := ⟨List.cons_ne_nil c text, List.forall_mem_cons.2 ⟨hc, h⟩⟩

theorem append (h : IsNumeral text) (h' : ∀ c ∈ text', isNumeralChar c = true) :
    IsNumeral (text ++ text') :=
  ⟨List.append_ne_nil_of_left_ne_nil h.ne_nil text', List.forall_mem_append.2 ⟨h.chars, h'⟩⟩

end IsNumeral

theorem isNumeral_digitChars (n : Nat) : IsNumeral (digitChars n) where
  ne_nil := List.ne_nil_of_length_pos (digitCount_pos n)
  chars c hc := by simp [isNumeralChar, isDigit_of_mem_digitChars hc]

namespace Layout

variable {F : Format} {digits : List Char}

theorem isNumeralChar_zeros (n : Nat) : ∀ c ∈ zeros n, isNumeralChar c = true := by
  intro c hc
  rw [List.eq_of_mem_replicate hc]
  rfl

theorem isNumeral_positionalText (l : Layout) (h : IsNumeral digits) (point : Int) :
    IsNumeral (l.positionalText digits point) := by
  unfold positionalText
  split_ifs
  · exact (h.append (isNumeralChar_zeros _)).append (List.all_eq_true.1 rfl)
  · exact (h.append (isNumeralChar_zeros _)).append nofun
  · refine ⟨by simp, List.forall_mem_append.2 ⟨fun c hc => ?_, ?_⟩⟩
    · exact h.chars c (List.mem_of_mem_take hc)
    · exact List.forall_mem_cons.2 ⟨rfl, fun c hc => h.chars c (List.mem_of_mem_drop hc)⟩
  · exact (IsNumeral.cons rfl (List.forall_mem_cons.2 ⟨rfl, isNumeralChar_zeros _⟩)).append h.chars

theorem isNumeral_exponentText (l : Layout) (h : IsNumeral digits) (point : Int) :
    IsNumeral (l.exponentText digits point) := by
  have hsign : ∀ c ∈ if point - 1 < 0 then ['-'] else if l.plusSign then ['+'] else [],
      isNumeralChar c = true := by
    split_ifs <;> exact List.all_eq_true.1 rfl
  unfold exponentText
  refine IsNumeral.append (IsNumeral.append ?_ (List.forall_mem_cons.2 ⟨rfl, hsign⟩))
    (isNumeral_digitChars _).chars
  -- The point stands after the first digit, if there are more.
  split
  · exact absurd rfl h.ne_nil
  · exact h
  · obtain ⟨hd, hrest⟩ := List.forall_mem_cons.1 h.chars
    exact .cons hd (List.forall_mem_cons.2 ⟨rfl, hrest⟩)

theorem isNumeral_decimalText (l : Layout) (d : Decimal) : IsNumeral (l.decimalText d) := by
  unfold decimalText
  split
  · exact l.isNumeral_positionalText (isNumeral_digitChars _) _
  · exact l.isNumeral_exponentText (isNumeral_digitChars _) _

theorem isNumeral_chars (l : Layout) (x : Binary F) : IsNumeral (l.chars x) := by
  have hbody := l.isNumeral_decimalText (x.shortest l.tie)
  unfold chars
  dsimp only
  split
  · exact .cons rfl hbody.chars
  · exact hbody

end Layout

end StreamedUi.Numeric
