import Mathlib.Data.List.Infix

/-! Texts put together from parts, and how the parts are found again. A word ends before the first
character that is not of its kind (`word_append_inj`); parts with a separator between them are found
one after the other if each can be told from what stands after it (`separated_append_inj`). -/

namespace StreamedUi.Text

theorem takeWhile_word {p : Char → Bool} {word rest : List Char} (hword : ∀ c ∈ word, p c = true)
    (hrest : ∀ c ∈ rest.head?, p c = false) : (word ++ rest).takeWhile p = word := by
  rw [List.takeWhile_append_of_pos hword]
  cases rest with
  | nil => exact List.append_nil word
  | cons c rest =>
    rw [List.takeWhile_cons_of_neg (by simp [hrest c rfl]), List.append_nil]

theorem word_append_inj {p : Char → Bool} {word word' rest rest' : List Char}
    (hword : ∀ c ∈ word, p c = true) (hword' : ∀ c ∈ word', p c = true)
    (hrest : ∀ c ∈ rest.head?, p c = false) (hrest' : ∀ c ∈ rest'.head?, p c = false)
    (h : word ++ rest = word' ++ rest') : word = word' ∧ rest = rest' := by
  obtain rfl : word = word' := by
    rw [← takeWhile_word hword hrest, h, takeWhile_word hword' hrest']
  exact ⟨rfl, List.append_cancel_left h⟩

/-! ## Separators -/

/-- What stands after the last part: it may stand after a part, and begins neither with a separator
nor with another part. -/
structure Closes (Stop : List Char → Prop) (sep : List Char) (parts : List (List Char))
    (rest : List Char) : Prop where
  stop : Stop rest
  not_sep : ¬sep <+: rest
  not_part : ∀ part ∈ parts, ¬part <+: rest

variable {α : Type} {f : α → List Char} {sep rest rest' : List Char} {Stop : List Char → Prop}
variable {as bs : List α}

/-- The parts after the first, each behind a separator. -/
def followers (sep : List Char) (f : α → List Char) (as : List α) : List Char :=
  as.flatMap fun a => sep ++ f a

theorem intercalate_cons (sep : List Char) (f : α → List Char) (a : α) (as : List α) :
    sep.intercalate ((a :: as).map f) = f a ++ followers sep f as := by
  induction as generalizing a with
  | nil => simp [followers]
  | cons b as ih =>
    rw [List.map_cons, List.map_cons, List.intercalate_cons_cons, ← List.map_cons, ih, followers,
      followers, List.flatMap_cons, List.append_assoc, List.append_assoc]

theorem stop_followers (hsep : ∀ rest, Stop (sep ++ rest)) (as : List α) (hrest : Stop rest) :
    Stop (followers sep f as ++ rest) := by
  cases as with
  | nil => exact hrest
  | cons a as =>
    rw [followers, List.flatMap_cons, List.append_assoc, List.append_assoc]
    exact hsep _

theorem followers_append_inj (hsep : ∀ rest, Stop (sep ++ rest))
    (hinj : ∀ a ∈ as, ∀ b ∈ bs, ∀ rest rest', Stop rest → Stop rest' →
      f a ++ rest = f b ++ rest' → a = b ∧ rest = rest')
    (hstop : Stop rest) (hstop' : Stop rest') (hnot : ¬sep <+: rest) (hnot' : ¬sep <+: rest')
    (h : followers sep f as ++ rest = followers sep f bs ++ rest') : as = bs ∧ rest = rest' := by
  induction as generalizing bs with
  | nil =>
    cases bs with
    | nil => exact ⟨rfl, h⟩
    | cons b bs =>
      refine absurd ⟨f b ++ followers sep f bs ++ rest', ?_⟩ hnot
      simpa [followers] using h.symm
  | cons a as ih =>
    cases bs with
    | nil =>
      refine absurd ⟨f a ++ followers sep f as ++ rest, ?_⟩ hnot'
      simpa [followers] using h
    | cons b bs =>
      have hparts : f a ++ (followers sep f as ++ rest) = f b ++ (followers sep f bs ++ rest') := by
        simpa [followers] using h
      obtain ⟨rfl, htail⟩ := hinj a List.mem_cons_self b List.mem_cons_self _ _
        (stop_followers hsep as hstop) (stop_followers hsep bs hstop') hparts
      obtain ⟨rfl, hrest⟩ := ih (fun a ha b hb =>
        hinj a (List.mem_cons_of_mem _ ha) b (List.mem_cons_of_mem _ hb)) htail
      exact ⟨rfl, hrest⟩

/-- Parts and separators are told apart if each part can be told from what stands after it. -/
theorem separated_append_inj (hsep : ∀ rest, Stop (sep ++ rest))
    (hinj : ∀ a ∈ as, ∀ b ∈ bs, ∀ rest rest', Stop rest → Stop rest' →
      f a ++ rest = f b ++ rest' → a = b ∧ rest = rest')
    (hrest : Closes Stop sep (bs.map f) rest) (hrest' : Closes Stop sep (as.map f) rest')
    (h : sep.intercalate (as.map f) ++ rest = sep.intercalate (bs.map f) ++ rest') :
    as = bs ∧ rest = rest' := by
  cases as with
  | nil =>
    cases bs with
    | nil => exact ⟨rfl, h⟩
    | cons b bs =>
      rw [intercalate_cons, List.append_assoc] at h
      exact absurd ⟨_, h.symm⟩ (hrest.not_part (f b) List.mem_cons_self)
  | cons a as =>
    cases bs with
    | nil =>
      rw [intercalate_cons, List.append_assoc] at h
      exact absurd ⟨_, h⟩ (hrest'.not_part (f a) List.mem_cons_self)
    | cons b bs =>
      rw [intercalate_cons, intercalate_cons, List.append_assoc, List.append_assoc] at h
      obtain ⟨rfl, htail⟩ := hinj a List.mem_cons_self b List.mem_cons_self _ _
        (stop_followers hsep as hrest.stop) (stop_followers hsep bs hrest'.stop) h
      obtain ⟨rfl, heq⟩ := followers_append_inj hsep (fun a ha b hb =>
        hinj a (List.mem_cons_of_mem _ ha) b (List.mem_cons_of_mem _ hb)) hrest.stop hrest'.stop
        hrest.not_sep hrest'.not_sep htail
      exact ⟨rfl, heq⟩

end StreamedUi.Text
