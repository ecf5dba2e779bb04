import Mathlib.Data.List.DropRight
import StreamedUi.Text.Blank

/-! Trimming. A text is its leading white space, the trimmed text and more white space
(`eq_append_trimChars`), the trimmed text does not end in white space
(`isBlank_of_trimChars_eq_concat`), and white space at either end does not count
(`trimChars_blank_append`, `trimChars_append_blank`). -/

namespace StreamedUi.Text

variable {cs ds : List Char}

/-- Nothing but white space. -/
def Blank (cs : List Char) : Prop := ∀ c ∈ cs, isBlank c = true

theorem Blank.append (h : Blank cs) (h' : Blank ds) : Blank (cs ++ ds) := fun c hc =>
  (List.mem_append.1 hc).elim (h c) (h' c)

theorem Blank.mono (h : Blank ds) (hp : cs <+: ds) : Blank cs := fun c hc =>
  h c (hp.subset hc)

theorem blank_takeWhile (cs : List Char) : Blank (cs.takeWhile isBlank) := fun _ hc =>
  List.mem_takeWhile_imp hc

theorem isBlankText_iff {s : String} : isBlankText s = true ↔ Blank s.toList := List.all_eq_true

theorem trimStart_blank_append (h : Blank cs) (ds : List Char) :
    trimStart (cs ++ ds) = trimStart ds :=
  List.dropWhile_append_of_pos h

theorem trimEnd_append_blank (h : Blank ds) (cs : List Char) :
    trimEnd (cs ++ ds) = trimEnd cs := by
  have hrev : ∀ c ∈ ds.reverse, isBlank c = true := fun c hc => h c (List.mem_reverse.1 hc)
  rw [trimEnd, List.reverse_append, List.dropWhile_append_of_pos hrev]
  rfl

theorem trimChars_eq_nil (h : Blank cs) : trimChars cs = [] := by
  have : trimStart cs = [] := List.dropWhile_eq_nil_iff.2 h
  rw [trimChars, this]
  rfl

theorem trimChars_blank_append (h : Blank cs) (ds : List Char) :
    trimChars (cs ++ ds) = trimChars ds := by
  rw [trimChars, trimStart_blank_append h, trimChars]

theorem trimChars_append_blank (h : Blank ds) (cs : List Char) :
    trimChars (cs ++ ds) = trimChars cs := by
  rw [trimChars, trimStart, List.dropWhile_append]
  split
  · next hnil =>
    have hblank : Blank cs := List.dropWhile_eq_nil_iff.1 (List.isEmpty_iff.1 hnil)
    have : ds.dropWhile isBlank = [] := List.dropWhile_eq_nil_iff.2 h
    rw [this, trimChars_eq_nil hblank]
    rfl
  · rw [trimEnd_append_blank h, trimChars, trimStart]

/-- The parts of a text: white space, the trimmed text, white space. -/
theorem eq_append_trimChars (cs : List Char) :
    ∃ tail, Blank tail ∧ cs = cs.takeWhile isBlank ++ (trimChars cs ++ tail) := by
  refine ⟨(trimStart cs).rtakeWhile isBlank, fun _ hc => List.mem_rtakeWhile_imp hc, ?_⟩
  rw [trimChars, trimEnd, ← List.rdropWhile, List.rdropWhile_append_rtakeWhile, trimStart,
    List.takeWhile_append_dropWhile]

/-- Trimming leaves something of every text that is not blank. -/
theorem blank_trimChars_iff : Blank (trimChars cs) ↔ Blank cs := by
  constructor
  · intro h
    obtain ⟨tail, htail, hcs⟩ := eq_append_trimChars cs
    rw [hcs]
    exact (blank_takeWhile cs).append (h.append htail)
  · intro h
    rw [trimChars_eq_nil h]
    exact fun _ hc => absurd hc List.not_mem_nil

theorem not_blank_iff : ¬Blank cs ↔ ∃ c ∈ cs, isBlank c = false := by
  simp only [Blank, not_forall, Bool.not_eq_true, exists_prop]

theorem trimChars_trimChars (cs : List Char) : trimChars (trimChars cs) = trimChars cs := by
  obtain ⟨tail, htail, hcs⟩ := eq_append_trimChars cs
  conv_rhs => rw [hcs]
  rw [trimChars_blank_append (blank_takeWhile cs), trimChars_append_blank htail]

/-- A text between two characters that are no white space is trimmed. -/
theorem trimChars_of_ends {c d : Char} (hc : isBlank c = false) (hd : isBlank d = false)
    (mid : List Char) : trimChars (c :: (mid ++ [d])) = c :: (mid ++ [d]) := by
  have hstart : trimStart (c :: (mid ++ [d])) = c :: (mid ++ [d]) :=
    List.dropWhile_cons_of_neg (by rw [hc]; exact Bool.false_ne_true)
  have hend : (c :: (mid ++ [d])).reverse = d :: (c :: mid).reverse := by
    rw [← List.cons_append, List.reverse_concat]
  rw [trimChars, hstart, trimEnd, hend,
    List.dropWhile_cons_of_neg (by rw [hd]; exact Bool.false_ne_true), ← hend,
    List.reverse_reverse]

theorem isBlank_of_trimChars_eq_concat {c : Char} (h : trimChars cs = ds ++ [c]) :
    isBlank c = false := by
  have htrim : (trimStart cs).rdropWhile isBlank = ds ++ [c] := h
  have hlast := List.rdropWhile_last_not isBlank (trimStart cs) (by simp [htrim])
  simp only [htrim, List.getLast_concat] at hlast
  rwa [Bool.not_eq_true] at hlast

/-- A trimmed text does not begin with white space either. -/
theorem isBlank_of_begins {c : Char} (h : c :: ds <+: trimChars cs) : isBlank c = false := by
  have hstart : c :: ds <+: trimStart cs := h.trans (List.rdropWhile_prefix isBlank _)
  obtain ⟨rest, hrest⟩ := hstart
  have := List.head?_dropWhile_not isBlank cs
  rw [← trimStart, ← hrest] at this
  simpa using this

/-- Trimming a beginning of a trimmed text leaves a beginning of it. -/
theorem trimChars_isPrefix (h : ds <+: trimChars cs) : trimChars ds <+: ds := by
  cases ds with
  | nil => exact List.prefix_refl []
  | cons c ds =>
    obtain ⟨tail, -, htail⟩ := eq_append_trimChars (c :: ds)
    rw [List.takeWhile_cons_of_neg (by simp [isBlank_of_begins h]), List.nil_append] at htail
    exact ⟨tail, htail.symm⟩

end StreamedUi.Text
